import Mathlib.Order.Monotone.Defs
import Mathlib.Tactic.TypeStar
import Dir842.Lib.Pairs

/-!
# Taking common factors out of two values

Two values with a common factor taken out of both stay comparable: what holds between the two that
are left, equality or an order, holds between the two there were. `Common` is one factor of one
operation, `Under` any monotone context.
-/

namespace Dir842.Factor
open Pairs
variable {α β : Type*}

/-! ### One operation -/

section op
variable (op : β → β → β)

/-- The pair `q` is `p` with one factor taken out of both. -/
def Common (p q : β × β) : Prop := ∃ c, p.1 = op c q.1 ∧ p.2 = op c q.2

variable {op} [Std.Associative op]

theorem Common.trans {p q r : β × β} (h : Common op p q) (h' : Common op q r) : Common op p r := by
  obtain ⟨c, h1, h2⟩ := h
  obtain ⟨d, h1', h2'⟩ := h'
  refine ⟨op c d, ?_, ?_⟩
  · rw [h1, h1']
    ac_rfl
  · rw [h2, h2']
    ac_rfl

theorem Common.mul [Std.Commutative op] {p q : β × β} (h : Common op p q) (x y : β) :
    Common op (op p.1 x, op p.2 y) (op q.1 x, op q.2 y) := by
  obtain ⟨c, h1, h2⟩ := h
  refine ⟨c, ?_, ?_⟩
  · show op p.1 x = op c (op q.1 x)
    rw [h1]
    ac_rfl
  · show op p.2 y = op c (op q.2 y)
    rw [h2]
    ac_rfl

end op

section unit
variable {op : β → β → β} (e : β) [Std.LawfulIdentity op e]
include e

theorem Common.refl (p : β × β) : Common op p p :=
  ⟨e, (Std.LawfulLeftIdentity.left_id p.1).symm, (Std.LawfulLeftIdentity.left_id p.2).symm⟩

/-- Two equal values are a common factor. -/
theorem Common.unit {x y : β} (h : x = y) : Common op (x, y) (e, e) :=
  ⟨x, (Std.LawfulRightIdentity.right_id x).symm,
    h ▸ (Std.LawfulRightIdentity.right_id y).symm⟩

end unit

/-! ### Totals of lists -/

/-- The entries of a list put together. -/
def total (op : β → β → β) (e : β) (f : α → β) (l : List α) : β := l.foldr (fun x => op (f x)) e

section total
variable {op : β → β → β} {e : β} [Std.Associative op] [Std.Commutative op] {f : α → β}
  {l l' xs ys : List α} {visit : α → α → α × α × ℕ} {P : α → Prop}

theorem total_perm (h : l.Perm l') : total op e f l = total op e f l' := by
  have : LeftCommutative fun (x : α) (b : β) => op (f x) b := ⟨fun x y b => by ac_rfl⟩
  exact h.foldr_eq e

omit [Std.Commutative op] in
theorem total_append [Std.LawfulIdentity op e] :
    total op e f (l ++ l') = op (total op e f l) (total op e f l') := by
  induction l with
  | nil => exact (Std.LawfulLeftIdentity.left_id _).symm
  | cons x l ih =>
    show op (f x) (total op e f (l ++ l')) = op (op (f x) (total op e f l)) (total op e f l')
    rw [ih]
    ac_rfl

/-- Where every visit takes a factor out of its two entries, the work takes one out of the totals. -/
theorem Common.cross [Std.LawfulIdentity op e]
    (hkeep : ∀ x y, P x → P y → P (visit x y).1 ∧ P (visit x y).2.1)
    (hvisit : ∀ x y, P x → P y → Common op (f x, f y) (f (visit x y).1, f (visit x y).2.1))
    (hxs : ∀ x ∈ xs, P x) (hys : ∀ y ∈ ys, P y) :
    Common op (total op e f xs, total op e f ys)
      (total op e f (cross visit xs ys).1, total op e f (cross visit xs ys).2.1) := by
  have hrun := @cross_rule _ visit (fun us vs _ => (∀ x ∈ us, P x) ∧ (∀ y ∈ vs, P y) ∧
    Common op (total op e f xs, total op e f ys) (total op e f us, total op e f vs))
    ?_ ?_ [] xs ys 0 ⟨hxs, hys, Common.refl e _⟩
  · exact hrun.2.2
  · rintro us us' vs vs' k hu hv ⟨hP, hP', h⟩
    refine ⟨fun x hx => hP x (hu.symm.subset hx), fun y hy => hP' y (hv.symm.subset hy), ?_⟩
    rwa [← total_perm hu, ← total_perm hv]
  · rintro x y us vs k ⟨hP, hP', h⟩
    obtain ⟨hx, hus⟩ := List.forall_mem_cons.mp hP
    obtain ⟨hy, hvs⟩ := List.forall_mem_cons.mp hP'
    obtain ⟨hx', hy'⟩ := hkeep x y hx hy
    refine ⟨List.forall_mem_cons.mpr ⟨hx', hus⟩, List.forall_mem_cons.mpr ⟨hy', hvs⟩, h.trans ?_⟩
    exact (hvisit x y hx hy).mul (total op e f us) (total op e f vs)

/-- What one visit does to what its two entries make together, the work does to the total. -/
theorem total_among {r : β → β → Prop} [IsPreorder β r]
    (hop : ∀ a b c, r a b → r (op a c) (op b c))
    (hkeep : ∀ x y, P x → P y → P (visit x y).1 ∧ P (visit x y).2.1)
    (hvisit : ∀ x y, P x → P y → r (op (f x) (f y)) (op (f (visit x y).1) (f (visit x y).2.1)))
    (hl : ∀ x ∈ l, P x) : r (total op e f l) (total op e f (among visit l).1) := by
  have hrun := @among_rule _ visit (fun us _ => (∀ x ∈ us, P x) ∧ r (total op e f l) (total op e f us))
    ?_ ?_ l ⟨hl, refl_of r _⟩
  · exact hrun.2
  · rintro us vs k hp ⟨hP, h⟩
    refine ⟨fun x hx => hP x (hp.symm.subset hx), ?_⟩
    rwa [← total_perm hp]
  · rintro x y us k ⟨hP, h⟩
    obtain ⟨hx, hP⟩ := List.forall_mem_cons.mp hP
    obtain ⟨hy, hus⟩ := List.forall_mem_cons.mp hP
    obtain ⟨hx', hy'⟩ := hkeep x y hx hy
    refine ⟨List.forall_mem_cons.mpr ⟨hx', List.forall_mem_cons.mpr ⟨hy', hus⟩⟩, trans_of r h ?_⟩
    have hassoc : ∀ a b : β, op a (op b (total op e f us)) = op (op a b) (total op e f us) :=
      fun a b => by ac_rfl
    show r (op (f x) (op (f y) (total op e f us)))
      (op (f (visit x y).1) (op (f (visit x y).2.1) (total op e f us)))
    rw [hassoc, hassoc]
    exact hop _ _ _ (hvisit x y hx hy)

end total

/-! ### Monotone contexts -/

section order
variable [Preorder β] {p q s : β × β}

/-- `p` is `q` in a monotone context. -/
def Under (p q : β × β) : Prop := ∃ g : β → β, Monotone g ∧ p.1 = g q.1 ∧ p.2 = g q.2

theorem Under.refl (p : β × β) : Under p p := ⟨id, monotone_id, rfl, rfl⟩

theorem Under.trans (h : Under p q) (h' : Under q s) : Under p s := by
  obtain ⟨g, hg, h1, h2⟩ := h
  obtain ⟨g', hg', h1', h2'⟩ := h'
  exact ⟨g ∘ g', hg.comp hg', by rw [h1, h1']; rfl, by rw [h2, h2']; rfl⟩

theorem Under.le (h : Under p q) (hq : q.1 ≤ q.2) : p.1 ≤ p.2 := by
  obtain ⟨g, hg, h1, h2⟩ := h
  rw [h1, h2]
  exact hg hq

theorem Under.eq (h : Under p q) (hq : q.1 = q.2) : p.1 = p.2 := by
  obtain ⟨g, -, h1, h2⟩ := h
  rw [h1, h2, hq]

theorem Common.under {op : β → β → β} (hop : ∀ c, Monotone (op c)) (h : Common op p q) :
    Under p q := by
  obtain ⟨c, h1, h2⟩ := h
  exact ⟨op c, hop c, h1, h2⟩

end order

end Dir842.Factor
