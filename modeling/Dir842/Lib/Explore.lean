import Mathlib.Data.Finset.Card
import Mathlib.Data.List.Infix
import Mathlib.Logic.Relation

/-!
# Traversals that mark what they meet

What a traversal adds to the marked elements, over successors that may lead back. It is over when
no element is left to be marked.
-/

namespace Dir842.Explore

variable {α : Type*} {next : α → List α} {roots roots' seen seen' seen'' : List α} {x : α}

/-- A chain of successors from one of the roots. -/
def Reaches (next : α → List α) (roots : List α) (x : α) : Prop :=
  ∃ r ∈ roots, Relation.ReflTransGen (fun a b => b ∈ next a) r x

theorem Reaches.of_mem (h : x ∈ roots) : Reaches next roots x := ⟨x, h, .refl⟩

theorem Reaches.tail {y : α} (h : Reaches next roots x) (hy : y ∈ next x) :
    Reaches next roots y := by
  obtain ⟨r, hr, hx⟩ := h
  exact ⟨r, hr, hx.tail hy⟩

theorem Reaches.mono (h : Reaches next roots x) (hroots : ∀ r ∈ roots, Reaches next roots' r) :
    Reaches next roots' x := by
  obtain ⟨r, hr, hx⟩ := h
  obtain ⟨t, ht, hr⟩ := hroots r hr
  exact ⟨t, ht, hr.trans hx⟩

theorem Reaches.of_next {next' : α → List α} (h : Reaches next roots x)
    (hnext : ∀ y, ∀ z ∈ next y, z ∈ next' y) : Reaches next' roots x := by
  obtain ⟨r, hr, hx⟩ := h
  exact ⟨r, hr, Relation.ReflTransGen.mono (fun y z => hnext y z) _ _ hx⟩

/-- From `seen` to `seen'`: the roots are marked, and with each element that is added also its
successors. -/
structure Explores (next : α → List α) (roots seen seen' : List α) : Prop where
  keeps : seen <+: seen'
  roots_mem : ∀ r ∈ roots, r ∈ seen'
  closed : ∀ x ∈ seen', x ∉ seen → ∀ y ∈ next x, y ∈ seen'
  reached : ∀ x ∈ seen', x ∉ seen → Reaches next roots x
  nodup : seen.Nodup → seen'.Nodup

namespace Explores

theorem nil (seen : List α) : Explores next [] seen seen where
  keeps := List.prefix_rfl
  roots_mem := nofun
  closed _ h hn := absurd h hn
  reached _ h hn := absurd h hn
  nodup := id

theorem of_mem {r : α} (hr : r ∈ seen) : Explores next [r] seen seen :=
  { nil seen with
    roots_mem := fun _ h => List.mem_singleton.mp h ▸ hr
    reached := fun _ h hn => absurd h hn }

theorem append (h : Explores next roots seen seen') (h' : Explores next roots' seen' seen'') :
    Explores next (roots ++ roots') seen seen'' where
  keeps := h.keeps.trans h'.keeps
  roots_mem r hr := (List.mem_append.mp hr).elim
    (fun hr => h'.keeps.subset (h.roots_mem r hr)) (h'.roots_mem r)
  closed x hx hn y hy := by
    by_cases hx' : x ∈ seen'
    · exact h'.keeps.subset (h.closed x hx' hn y hy)
    · exact h'.closed x hx hx' y hy
  reached x hx hn := by
    by_cases hx' : x ∈ seen'
    · exact (h.reached x hx' hn).mono fun r hr => .of_mem (List.mem_append_left _ hr)
    · exact (h'.reached x hx hx').mono fun r hr => .of_mem (List.mem_append_right _ hr)
  nodup hnd := h'.nodup (h.nodup hnd)

/-- The roots that are not marked yet are marked together, and their successors come next. -/
theorem mark {fresh : List α} (hnodup : fresh.Nodup) (hnew : ∀ x ∈ fresh, x ∉ seen)
    (hfresh : ∀ x ∈ fresh, x ∈ roots) (hroots : ∀ r ∈ roots, r ∈ seen ∨ r ∈ fresh)
    (h : Explores next (fresh.flatMap next) (seen ++ fresh) seen') :
    Explores next roots seen seen' where
  keeps := (List.prefix_append ..).trans h.keeps
  roots_mem r hr := h.keeps.subset (List.mem_append.mpr (hroots r hr))
  closed x hx hn y hy := by
    by_cases hf : x ∈ fresh
    · exact h.roots_mem y (List.mem_flatMap_of_mem hf hy)
    · exact h.closed x hx (fun hx' => (List.mem_append.mp hx').elim hn hf) y hy
  reached x hx hn := by
    by_cases hf : x ∈ fresh
    · exact .of_mem (hfresh x hf)
    · refine (h.reached x hx fun hx' => (List.mem_append.mp hx').elim hn hf).mono fun r hr => ?_
      obtain ⟨t, ht, hr⟩ := List.mem_flatMap.mp hr
      exact (Reaches.of_mem (hfresh t ht)).tail hr
  nodup hnd := h.nodup (List.nodup_append.mpr
    ⟨hnd, hnodup, fun a ha b hb heq => hnew b hb (heq ▸ ha)⟩)

/-- One root that is not marked yet. -/
theorem enter {r : α} (hr : r ∉ seen) (h : Explores next (next r) (seen ++ [r]) seen') :
    Explores next [r] seen seen' := by
  refine mark (List.nodup_singleton r) (fun x hx => ?_) (fun x => id) (fun x => .inr) ?_
  · exact List.mem_singleton.mp hx ▸ hr
  · rwa [List.flatMap_singleton]

/-- A loop whose body marks what is behind one element after the other, of elements that are
marked before it starts. -/
theorem foldlM {β : Type*} {f : List α → β → Option (List α)} {key : β → α} {behind : β → List α}
    (hf : ∀ s b s', key b ∈ s → f s b = some s' → Explores next (behind b) s s') (bs : List β)
    (hkey : ∀ b ∈ bs, key b ∈ seen) (h : bs.foldlM f seen = some seen') :
    Explores next (bs.flatMap behind) seen seen' := by
  induction bs generalizing seen with
  | nil =>
    cases h
    exact nil _
  | cons b bs ih =>
    rw [List.foldlM_cons] at h
    obtain ⟨s, hb, hbs⟩ := Option.bind_eq_some_iff.mp h
    obtain ⟨hkb, hkbs⟩ := List.forall_mem_cons.mp hkey
    have hfirst := hf seen b s hkb hb
    exact hfirst.append (ih (fun c hc => hfirst.keeps.subset (hkbs c hc)) hbs)

/-- What is marked at the end, if no root leads to what was marked at the start. -/
theorem mem_iff (h : Explores next roots seen seen') (hseen : ∀ x ∈ seen, ¬ Reaches next roots x) :
    x ∈ seen' ↔ x ∈ seen ∨ Reaches next roots x := by
  constructor
  · intro hx
    by_cases hs : x ∈ seen
    · exact .inl hs
    · exact .inr (h.reached x hx hs)
  · rintro (hx | ⟨r, hr, hx⟩)
    · exact h.keeps.subset hx
    · induction hx with
      | refl => exact h.roots_mem r hr
      | tail hy hz ih => exact h.closed _ ih (fun hs => hseen _ hs ⟨r, hr, hy⟩) _ hz

end Explores

/-! ### Loops that end -/

/-- A loop ends where each round does and keeps what the next one needs. -/
theorem exists_foldlM {σ β : Type*} {f : σ → β → Option σ} {I : σ → Prop} {bs : List β}
    (h : ∀ b ∈ bs, ∀ s, I s → ∃ s', f s b = some s' ∧ I s') {s : σ} (hs : I s) :
    ∃ s', bs.foldlM f s = some s' := by
  induction bs generalizing s with
  | nil => exact ⟨s, rfl⟩
  | cons b bs ih =>
    obtain ⟨hb, hbs⟩ := List.forall_mem_cons.mp h
    obtain ⟨s₁, hs₁, hI⟩ := hb s hs
    rw [List.foldlM_cons, hs₁]
    exact ih hbs hI

/-! ### What is left to be marked -/

section
variable [DecidableEq α] {U : Finset α}

def unmarked (U : Finset α) (seen : List α) : ℕ := (U.filter (· ∉ seen)).card

theorem unmarked_le_card (U : Finset α) (seen : List α) : unmarked U seen ≤ U.card :=
  Finset.card_filter_le ..

theorem unmarked_le (h : ∀ x ∈ seen, x ∈ seen') : unmarked U seen' ≤ unmarked U seen :=
  Finset.card_le_card (Finset.monotone_filter_right U fun _ _ hx hs => hx (h _ hs))

theorem unmarked_lt (hU : x ∈ U) (hx : x ∉ seen) (hx' : x ∈ seen') (h : ∀ y ∈ seen, y ∈ seen') :
    unmarked U seen' < unmarked U seen := by
  refine Finset.card_lt_card (Finset.ssubset_iff_of_subset ?_ |>.mpr ⟨x, ?_, ?_⟩)
  · exact Finset.monotone_filter_right U fun _ _ hy hs => hy (h _ hs)
  · exact Finset.mem_filter.mpr ⟨hU, hx⟩
  · exact fun hf => (Finset.mem_filter.mp hf).2 hx'

end

end Dir842.Explore
