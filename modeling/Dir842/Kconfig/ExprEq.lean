import Dir842.Kconfig.Expr

/-!
# Comparing expressions (`expr_eq`, `expr_eliminate_eq`)

`expr_eliminate_eq` takes out of two expressions the operands that both have; `expr_eq` compares two
levels by what is left of copies of them. The two call each other on the operands.

What is taken out is a common factor of the two values, so the expressions there were are the
expressions that are left, in one monotone context.
-/

namespace Dir842.Kconfig
open Factor Pairs

variable {S : Type*} [DecidableEq S] (d : Symbols S)

namespace Junction

/-- The value that decides a level whatever the other operands are. -/
def zero : Junction → Tristate
  | and => .no
  | or => .yes

theorem op_zero (t : Junction) (a : Tristate) : t.op t.zero a = t.zero := by
  cases t <;> cases a <;> rfl

theorem op_comm (t : Junction) (a b : Tristate) : t.op a b = t.op b a :=
  Std.Commutative.comm a b

end Junction

/-- `expr_eliminate_yn`: constants `y` and `n` as operands of a level. -/
def exprEliminateYn : Expr S → Expr S
  | .junct t l r =>
    let l := exprEliminateYn l
    let r := exprEliminateYn r
    if l = .symbol (d.const t.zero) then .symbol (d.const t.zero)
    else if l = .symbol (d.const t.unit) then r
    else if r = .symbol (d.const t.zero) then .symbol (d.const t.zero)
    else if r = .symbol (d.const t.unit) then l
    else .junct t l r
  | e => e

section eliminate
variable (eq : Expr S → Expr S → Bool)

/-- Two operands that are equal are made the constant to be eliminated. -/
def eliminateEqLeaf (t : Junction) (e1 e2 : Expr S) : Expr S × Expr S × ℕ :=
  if e1 = e2 ∧ (e1 = .symbol (d.const .yes) ∨ e1 = .symbol (d.const .no)) then (e1, e2, 0)
  else if eq e1 e2 then (.symbol (d.const t.unit), .symbol (d.const t.unit), 1)
  else (e1, e2, 0)

/-- `__expr_eliminate_eq`: every operand of the one level against every operand of the other. -/
def exprEliminateEq1 (t : Junction) (e1 e2 : Expr S) : Expr S × Expr S :=
  let (es1, es2, _) := cross (eliminateEqLeaf d eq t) (e1.leaves t) (e2.leaves t)
  (e1.putLeaves t es1, e2.putLeaves t es2)

/-- The level that `e` begins, if it begins one. -/
def eliminateEqOf (e e1 e2 : Expr S) : Expr S × Expr S :=
  match e with
  | .junct t _ _ => exprEliminateEq1 d eq t e1 e2
  | _ => (e1, e2)

/-- `expr_eliminate_eq`, with the `expr_eq` that it calls. -/
def exprEliminateEqBy (e1 e2 : Expr S) : Expr S × Expr S :=
  let (e1, e2) := eliminateEqOf d eq e1 e1 e2
  let (e1, e2) := if e1.type = e2.type then (e1, e2) else eliminateEqOf d eq e2 e1 e2
  (exprEliminateYn d e1, exprEliminateYn d e2)

end eliminate

/-- `expr_eq`, as far as expressions of `n` levels. -/
def exprEqDepth : ℕ → Expr S → Expr S → Bool
  | n + 1, .not e1, .not e2 => exprEqDepth n e1 e2
  | _ + 1, .symbol s1, .symbol s2 => s1 = s2
  | _ + 1, .comp rel1 l1 r1, .comp rel2 l2 r2 => rel1 = rel2 ∧ l1 = l2 ∧ r1 = r2
  | n + 1, .junct t1 l1 r1, .junct t2 l2 r2 =>
    if t1 = t2 then
      match exprEliminateEqBy d (exprEqDepth n) (.junct t1 l1 r1) (.junct t2 l2 r2) with
      | (.symbol s1, .symbol s2) => s1 = s2
      | _ => false
    else false
  | _, _, _ => false

def exprEq (e1 e2 : Expr S) : Bool := exprEqDepth d (max e1.height e2.height) e1 e2

def exprEliminateEq (e1 e2 : Expr S) : Expr S × Expr S := exprEliminateEqBy d (exprEq d) e1 e2

variable {d}

/-! ### Constants as operands -/

theorem calc_exprEliminateYn (v : Valuation d) (e : Expr S) :
    exprCalcValue v (exprEliminateYn d e) = exprCalcValue v e := by
  induction e with
  | junct t l r ihl ihr =>
    rw [exprEliminateYn, exprCalcValue, ← ihl, ← ihr]
    generalize exprEliminateYn d l = l'
    generalize exprEliminateYn d r = r'
    split_ifs with h1 h2 h3 h4
    · rw [h1, v.calc_const, t.op_zero]
    · rw [h2, v.calc_const]
      exact (Std.LawfulLeftIdentity.left_id _).symm
    · rw [h3, v.calc_const, t.op_comm, t.op_zero]
    · rw [h4, v.calc_const]
      exact (Std.LawfulRightIdentity.right_id _).symm
    · rfl
  | _ => rfl

/-! ### The recursion of the source -/

section eliminate
variable {eq eq' : Expr S → Expr S → Bool} {t : Junction} {e1 e2 : Expr S}

theorem height_eliminateEqLeaf {n : ℕ} (h1 : e1.height < n) (h2 : e2.height < n) :
    (eliminateEqLeaf d eq t e1 e2).1.height < n ∧ (eliminateEqLeaf d eq t e1 e2).2.1.height < n := by
  have hone : (Expr.symbol (d.const t.unit)).height < n := Nat.lt_of_le_of_lt e1.height_pos h1
  rw [eliminateEqLeaf]
  split_ifs
  exacts [⟨h1, h2⟩, ⟨hone, hone⟩, ⟨h1, h2⟩]

theorem exprEliminateEq1_eq :
    exprEliminateEq1 d eq t e1 e2 =
      (e1.putLeaves t (cross (eliminateEqLeaf d eq t) (e1.leaves t) (e2.leaves t)).1,
        e2.putLeaves t (cross (eliminateEqLeaf d eq t) (e1.leaves t) (e2.leaves t)).2.1) := rfl

theorem exprEliminateEqBy_eq {p q : Expr S × Expr S} (hp : eliminateEqOf d eq e1 e1 e2 = p)
    (hq : (if p.1.type = p.2.type then p else eliminateEqOf d eq p.2 p.1 p.2) = q) :
    exprEliminateEqBy d eq e1 e2 = (exprEliminateYn d q.1, exprEliminateYn d q.2) := by
  subst hp hq
  rfl

/-- Two levels of one kind stay such levels; only their operands change. -/
theorem exprEliminateEqBy_junct (l1 r1 l2 r2 : Expr S) :
    exprEliminateEqBy d eq (.junct t l1 r1) (.junct t l2 r2) =
      (exprEliminateYn d (exprEliminateEq1 d eq t (.junct t l1 r1) (.junct t l2 r2)).1,
        exprEliminateYn d (exprEliminateEq1 d eq t (.junct t l1 r1) (.junct t l2 r2)).2) := by
  refine exprEliminateEqBy_eq rfl (if_pos ?_)
  show ((Expr.junct t l1 r1).putLeaves t _).type = ((Expr.junct t l2 r2).putLeaves t _).type
  rw [Expr.putLeaves_junct_self, Expr.putLeaves_junct_self]
  rfl

theorem exprEliminateEq1_congr {n : ℕ} {l1 r1 l2 r2 : Expr S}
    (h1 : (Expr.junct t l1 r1).height ≤ n) (h2 : (Expr.junct t l2 r2).height ≤ n)
    (heq : ∀ x y, x.height < n → y.height < n → eq x y = eq' x y) :
    exprEliminateEq1 d eq t (.junct t l1 r1) (.junct t l2 r2) =
      exprEliminateEq1 d eq' t (.junct t l1 r1) (.junct t l2 r2) := by
  have hcross := @cross_congr _ (eliminateEqLeaf d eq t) (eliminateEqLeaf d eq' t)
    (fun x => x.height < n) (fun x y hx hy => height_eliminateEqLeaf hx hy)
    (fun x y hx hy => by rw [eliminateEqLeaf, eliminateEqLeaf, heq x y hx hy])
    _ _ (fun x hx => Nat.lt_of_lt_of_le (Expr.height_lt_of_mem_leaves hx) h1)
    (fun y hy => Nat.lt_of_lt_of_le (Expr.height_lt_of_mem_leaves hy) h2)
  rw [exprEliminateEq1_eq, exprEliminateEq1_eq, hcross]

end eliminate

/-- Deep enough, the depth makes no difference. -/
theorem exprEqDepth_congr {n m : ℕ} {e1 e2 : Expr S} (hn : max e1.height e2.height ≤ n)
    (hm : max e1.height e2.height ≤ m) : exprEqDepth d n e1 e2 = exprEqDepth d m e1 e2 := by
  induction n generalizing m e1 e2 with
  | zero => exact absurd (Nat.lt_of_lt_of_le e1.height_pos ((le_max_left _ _).trans hn)) (Nat.lt_irrefl 0)
  | succ n ih =>
    obtain ⟨m, rfl⟩ := Nat.exists_eq_add_one.mpr
      (Nat.lt_of_lt_of_le e1.height_pos ((le_max_left _ _).trans hm))
    cases e1 with
    | not e1 =>
      cases e2 with
      | not e2 =>
        simp only [Expr.height, max_le_iff, Nat.add_le_add_iff_right] at hn hm
        exact ih (max_le_iff.mpr hn) (max_le_iff.mpr hm)
      | _ => rfl
    | junct t1 l1 r1 =>
      cases e2 with
      | junct t2 l2 r2 =>
        rw [exprEqDepth, exprEqDepth]
        by_cases ht : t1 = t2
        · subst ht
          rw [exprEliminateEqBy_junct, exprEliminateEqBy_junct,
            @exprEliminateEq1_congr _ _ d (exprEqDepth d n) (exprEqDepth d m) t1
              (max (Expr.junct t1 l1 r1).height (Expr.junct t1 l2 r2).height) _ _ _ _
              (le_max_left _ _) (le_max_right _ _)]
          intro x y hx hy
          exact ih (Nat.le_of_lt_succ (Nat.lt_of_lt_of_le (max_lt hx hy) hn))
            (Nat.le_of_lt_succ (Nat.lt_of_lt_of_le (max_lt hx hy) hm))
        · rw [if_neg ht, if_neg ht]
      | _ => rfl
    | _ => cases e2 <;> rfl

theorem exprEq_eq {n : ℕ} {e1 e2 : Expr S} (hn : max e1.height e2.height ≤ n) :
    exprEq d e1 e2 = exprEqDepth d n e1 e2 := exprEqDepth_congr (le_refl _) hn

theorem exprEq_not (e1 e2 : Expr S) : exprEq d (.not e1) (.not e2) = exprEq d e1 e2 := by
  rw [exprEq_eq (le_refl _), exprEq, Expr.height, Expr.height, max_add_add_right]
  rfl

/-- `expr_eq` of two levels, as the source has it: what is left of copies is one symbol. -/
theorem exprEq_junct (t : Junction) (l1 r1 l2 r2 : Expr S) :
    exprEq d (.junct t l1 r1) (.junct t l2 r2) =
      match exprEliminateEq d (.junct t l1 r1) (.junct t l2 r2) with
      | (.symbol s1, .symbol s2) => decide (s1 = s2)
      | _ => false := by
  obtain ⟨n, hn⟩ : ∃ n, max (Expr.junct t l1 r1).height (Expr.junct t l2 r2).height = n + 1 :=
    ⟨max (max l1.height r1.height) (max l2.height r2.height), max_add_add_right _ _ _⟩
  have hcall : exprEliminateEqBy d (exprEqDepth d n) (.junct t l1 r1) (.junct t l2 r2) =
      exprEliminateEq d (.junct t l1 r1) (.junct t l2 r2) := by
    rw [exprEliminateEq, exprEliminateEqBy_junct, exprEliminateEqBy_junct,
      @exprEliminateEq1_congr _ _ d (exprEqDepth d n) (exprEq d) t (n + 1) _ _ _ _
        (hn ▸ le_max_left _ _) (hn ▸ le_max_right _ _)]
    intro x y hx hy
    exact (exprEq_eq (max_le (Nat.le_of_lt_succ hx) (Nat.le_of_lt_succ hy))).symm
  rw [exprEq, hn, exprEqDepth, if_pos rfl, hcall]

/-! ### What is taken out -/

section sound
variable {eq : Expr S → Expr S → Bool} {t : Junction} {e1 e2 : Expr S} (v : Valuation d)
  (heq : ∀ x y, eq x y = true → exprCalcValue v x = exprCalcValue v y)
include heq

theorem common_eliminateEqLeaf :
    Common t.op (exprCalcValue v e1, exprCalcValue v e2)
      (exprCalcValue v (eliminateEqLeaf d eq t e1 e2).1,
        exprCalcValue v (eliminateEqLeaf d eq t e1 e2).2.1) := by
  rw [eliminateEqLeaf]
  split_ifs with hconst h
  · exact Common.refl t.unit _
  · rw [v.calc_const]
    exact Common.unit t.unit (heq e1 e2 h)
  · exact Common.refl t.unit _

theorem common_exprEliminateEq1 :
    Common t.op (exprCalcValue v e1, exprCalcValue v e2)
      (exprCalcValue v (exprEliminateEq1 d eq t e1 e2).1,
        exprCalcValue v (exprEliminateEq1 d eq t e1 e2).2) := by
  obtain ⟨hlen1, hlen2⟩ := @length_cross _ (eliminateEqLeaf d eq t) (e1.leaves t) (e2.leaves t)
  rw [exprEliminateEq1_eq, Expr.calc_putLeaves v hlen1, Expr.calc_putLeaves v hlen2,
    @Expr.calc_leaves _ d t v e1, @Expr.calc_leaves _ d t v e2]
  exact Common.cross (fun _ _ _ _ => ⟨trivial, trivial⟩)
    (fun _ _ _ _ => common_eliminateEqLeaf v heq) (fun _ _ => trivial) fun _ _ => trivial

theorem under_exprEliminateEq1 :
    Under (exprCalcValue v e1, exprCalcValue v e2)
      (exprCalcValue v (exprEliminateEq1 d eq t e1 e2).1,
        exprCalcValue v (exprEliminateEq1 d eq t e1 e2).2) :=
  (common_exprEliminateEq1 v heq).under t.op_monotone

theorem under_eliminateEqOf (e e1 e2 : Expr S) :
    Under (exprCalcValue v e1, exprCalcValue v e2)
      (exprCalcValue v (eliminateEqOf d eq e e1 e2).1,
        exprCalcValue v (eliminateEqOf d eq e e1 e2).2) := by
  cases e
  case junct t _ _ => exact under_exprEliminateEq1 v heq
  all_goals exact Under.refl _

theorem under_exprEliminateEqBy (e1 e2 : Expr S) :
    Under (exprCalcValue v e1, exprCalcValue v e2)
      (exprCalcValue v (exprEliminateEqBy d eq e1 e2).1,
        exprCalcValue v (exprEliminateEqBy d eq e1 e2).2) := by
  rw [exprEliminateEqBy_eq rfl rfl, calc_exprEliminateYn, calc_exprEliminateYn]
  refine (under_eliminateEqOf v heq e1 e1 e2).trans ?_
  split_ifs
  · exact Under.refl _
  · exact under_eliminateEqOf v heq _ _ _

end sound

theorem exprEqDepth_sound (v : Valuation d) {n : ℕ} {e1 e2 : Expr S} (h : exprEqDepth d n e1 e2 = true) :
    exprCalcValue v e1 = exprCalcValue v e2 := by
  induction n generalizing e1 e2 with
  | zero => cases h
  | succ n ih =>
    cases e1 <;> cases e2 <;> try cases h
    case symbol.symbol => rw [of_decide_eq_true h]
    case not.not e1 e2 => exact congrArg Tristate.not (ih h)
    case junct.junct t1 l1 r1 t2 l2 r2 =>
      rw [exprEqDepth] at h
      split_ifs at h with ht
      subst ht
      have hunder := under_exprEliminateEqBy v (fun x y => ih) (.junct t1 l1 r1) (.junct t1 l2 r2)
      revert h hunder
      generalize exprEliminateEqBy d (exprEqDepth d n) _ _ = left
      intro h hunder
      split at h
      · exact hunder.eq (by rw [of_decide_eq_true h])
      · cases h
    case comp.comp rel1 l1 r1 rel2 l2 r2 =>
      obtain ⟨rfl, rfl, rfl⟩ := of_decide_eq_true h
      rfl

theorem under_exprEliminateEq (v : Valuation d) (e1 e2 : Expr S) :
    Under (exprCalcValue v e1, exprCalcValue v e2)
      (exprCalcValue v (exprEliminateEq d e1 e2).1, exprCalcValue v (exprEliminateEq d e1 e2).2) :=
  under_exprEliminateEqBy v (fun _ _ h => exprEqDepth_sound v h) e1 e2

/-- Expressions that `expr_eq` calls equal have the same value whatever the symbols' values are. -/
theorem exprCalcValue_eq_of_exprEq {e1 e2 : Expr S} (h : exprEq d e1 e2 = true) (v : Valuation d) :
    exprCalcValue v e1 = exprCalcValue v e2 := exprEqDepth_sound v h

def operandA : Expr SymRef := .symbol ⟨false, "A".toList⟩
def operandB : Expr SymRef := .symbol ⟨false, "B".toList⟩

theorem exprCalcValue_swapped : exprEq (Symbols.ofValues fun _ => none) (.junct .and operandA operandB)
      (.junct .and operandB operandA) = true ∧
    exprCalcValue (Valuation.ofValues fun _ => none) (.junct .and operandA operandB) =
      exprCalcValue (Valuation.ofValues fun _ => none) (.junct .and operandB operandA) :=
  ⟨by decide, exprCalcValue_eq_of_exprEq (by decide) (Valuation.ofValues fun _ => none)⟩

/-- `expr_eliminate_eq` leaves two expressions of which those it was given are values in one
monotone context. -/
theorem exprEliminateEq_under (e1 e2 : Expr S) (v : Valuation d) :
    ∃ g : Tristate → Tristate, Monotone g ∧
      exprCalcValue v e1 = g (exprCalcValue v (exprEliminateEq d e1 e2).1) ∧
      exprCalcValue v e2 = g (exprCalcValue v (exprEliminateEq d e1 e2).2) :=
  under_exprEliminateEq v e1 e2

end Dir842.Kconfig
