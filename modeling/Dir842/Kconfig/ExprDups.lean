import Mathlib.Algebra.Order.Ring.Nat
import Dir842.Kconfig.ExprEq

/-!
# Joining operands (`expr_eliminate_dups`)

The operands of a level meet in pairs. Where two of them can be said as one, the second becomes that
one and the first the constant that `expr_eliminate_yn` takes out; the passes go on until one of
them joins nothing.

The value stays the same as long as no constant that a tristate is compared with is a number: a
tristate is compared with numbers by its own number, and `m`, `"1"` and `"0x1"` are all one then.
-/

namespace Dir842.Kconfig
open Factor Pairs

variable {S : Type*} [DecidableEq S] (d : Symbols S)

/-! ### Two operands -/

/-- `sym1`: the symbol that the first operand is about. -/
def joinSym1 : Expr S → Option S
  | .not (.comp .equal s _) | .not (.comp .unequal s _) | .not (.symbol s) => some s
  | .comp .equal s _ | .comp .unequal s _ | .symbol s => some s
  | _ => none

/-- `sym2`; here only a symbol may stand below `E_NOT`. -/
def joinSym2 : Expr S → Option S
  | .not (.symbol s) => some s
  | .comp .equal s _ | .comp .unequal s _ | .symbol s => some s
  | _ => none

def isSymbol : Expr S → Bool
  | .symbol _ => true
  | _ => false

def isNotSymbol : Expr S → Bool
  | .not (.symbol _) => true
  | _ => false

def isComp (rel : Rel) (c : S) : Expr S → Bool
  | .comp rel' _ c' => rel' = rel ∧ c' = c
  | _ => false

/-- The one way round or the other. -/
def either (p q : Expr S → Bool) (e1 e2 : Expr S) : Bool := (p e1 && q e2) || (q e1 && p e2)

/-- The rules of `expr_join_or` for two operands about `sym1`. -/
def joinOrRules (sym1 : S) (e1 e2 : Expr S) : Option (Expr S) :=
  if d.type sym1 = some .tristate then
    -- (a='y') || (a='m') -> (a!='n')
    if either (isComp .equal (d.const .yes)) (isComp .equal (d.const .mod)) e1 e2 then some (.comp .unequal sym1 (d.const .no))
    -- (a='y') || (a='n') -> (a!='m')
    else if either (isComp .equal (d.const .yes)) (isComp .equal (d.const .no)) e1 e2 then
      some (.comp .unequal sym1 (d.const .mod))
    -- (a='m') || (a='n') -> (a!='y')
    else if either (isComp .equal (d.const .mod)) (isComp .equal (d.const .no)) e1 e2 then
      some (.comp .unequal sym1 (d.const .yes))
    else none
  else if d.type sym1 = some .boolean ∧ either isNotSymbol isSymbol e1 e2 then some (.symbol (d.const .yes))
  else none

/-- `(a='b') && (a!='c')` of two constants: `n` if they are the same, `a='b'` otherwise. -/
def joinConsts (sym1 b c : S) : Option (Expr S) :=
  if d.isConst b ∧ d.isConst c then
    some (if b ≠ c then .comp .equal sym1 b else .symbol (d.const .no))
  else none

/-- The rules of `expr_join_and` for two comparisons of the tristate `sym1`. -/
def joinAndTristate (sym1 : S) : Expr S → Expr S → Option (Expr S)
  | .comp .equal _ b, .comp .unequal _ c => joinConsts d sym1 b c
  | .comp .unequal _ c, .comp .equal _ b => joinConsts d sym1 b c
  | e1, e2 =>
    -- (a!='y') && (a!='n') -> (a='m')
    if either (isComp .unequal (d.const .yes)) (isComp .unequal (d.const .no)) e1 e2 then
      some (.comp .equal sym1 (d.const .mod))
    -- (a!='y') && (a!='m') -> (a='n')
    else if either (isComp .unequal (d.const .yes)) (isComp .unequal (d.const .mod)) e1 e2 then
      some (.comp .equal sym1 (d.const .no))
    -- (a!='m') && (a!='n') -> (a='y')
    else if either (isComp .unequal (d.const .mod)) (isComp .unequal (d.const .no)) e1 e2 then
      some (.comp .equal sym1 (d.const .yes))
    else none

/-- The rules of `expr_join_and` for two operands about `sym1`. -/
def joinAndRules (sym1 : S) (e1 e2 : Expr S) : Option (Expr S) :=
  if d.IsTri sym1 then
    -- (a) && (a='y') -> (a='y')
    if either isSymbol (isComp .equal (d.const .yes)) e1 e2 then
      some (.comp .equal sym1 (d.const .yes))
    -- (a) && (a!='n') -> (a)
    else if either isSymbol (isComp .unequal (d.const .no)) e1 e2 then some (.symbol sym1)
    -- (a) && (a!='m') -> (a='y')
    else if either isSymbol (isComp .unequal (d.const .mod)) e1 e2 then
      some (.comp .equal sym1 (d.const .yes))
    else if d.type sym1 = some .tristate then joinAndTristate d sym1 e1 e2
    else none
  else none

/-- What `expr_join_or` and `expr_join_and` begin with: the same operand twice, or two about one
symbol. -/
def joinOperands (rules : S → Expr S → Expr S → Option (Expr S)) (e1 e2 : Expr S) : Option (Expr S) :=
  if exprEq d e1 e2 then some e1
  else
    match joinSym1 e1, joinSym2 e2 with
    | some sym1, some sym2 => if sym1 = sym2 then rules sym1 e1 e2 else none
    | _, _ => none

def exprJoinOr (e1 e2 : Expr S) : Option (Expr S) := joinOperands d (joinOrRules d) e1 e2

def exprJoinAnd (e1 e2 : Expr S) : Option (Expr S) := joinOperands d (joinAndRules d) e1 e2

def exprJoin : Junction → Expr S → Expr S → Option (Expr S)
  | .or => exprJoinOr d
  | .and => exprJoinAnd d

/-! ### The passes -/

namespace Expr

def size : Expr S → ℕ
  | junct _ l r => size l + size r + 1
  | _ => 1

end Expr

/-- Two operands meet; `nested` is the work on the level that the first one is, if it is one. -/
def eliminateDupsLeaf (nested : Expr S → Expr S × ℕ) (t : Junction) (e1 e2 : Expr S) :
    Expr S × Expr S × ℕ :=
  let (e1, k) := nested e1
  match exprJoin d t e1 e2 with
  | some tmp => (.symbol (d.const t.unit), tmp, k + 1)
  | none => (e1, e2, k)

/-- `expr_eliminate_dups1` of an expression against itself, as far as `n` levels; it counts what it
has joined. -/
def exprEliminateDups1Depth : ℕ → Expr S → Expr S × ℕ
  | n + 1, .junct t l r =>
    let (es, k) := among (eliminateDupsLeaf d (exprEliminateDups1Depth n) t) ((Expr.junct t l r).leaves t)
    ((Expr.junct t l r).putLeaves t es, k)
  | _, e => (e, 0)

def exprEliminateDups1 (e : Expr S) : Expr S × ℕ := exprEliminateDups1Depth d e.size e

/-- The passes of `expr_eliminate_dups`, `n` of them at most. -/
def exprEliminateDupsPasses : ℕ → Expr S → Expr S
  | 0, e => e
  | n + 1, e =>
    let (e, transCount) := exprEliminateDups1 d e
    if transCount = 0 then e else exprEliminateDupsPasses n (exprEliminateYn d e)

def exprEliminateDups (e : Expr S) : Expr S := exprEliminateDupsPasses d e.size e

variable {d}

/-! ### What joining keeps -/

section operands
omit [DecidableEq S]
variable {rel : Rel} {c sym : S} {e e1 e2 : Expr S}

namespace Expr

/-- No constant that a tristate is compared with is a number. -/
def NumberFree (d : Symbols S) : Expr S → Prop
  | comp _ l r => d.type l = some .tristate → d.isConst r = true →
      exprParseString (d.name r) none = .string
  | not e => NumberFree d e
  | junct _ l r => NumberFree d l ∧ NumberFree d r
  | symbol _ => True

theorem numberFree_comp_const (rel : Rel) (s : S) (t : Tristate) :
    NumberFree d (comp rel s (d.const t)) := by
  intro _ _
  rw [d.name_const]
  cases t <;> rfl

end Expr

/-- The forms of operands that are about `sym`. -/
inductive OperandOf (sym : S) : Expr S → Prop
  | symbol : OperandOf sym (.symbol sym)
  | not : OperandOf sym (.not (.symbol sym))
  | equal (c : S) : OperandOf sym (.comp .equal sym c)
  | unequal (c : S) : OperandOf sym (.comp .unequal sym c)
  | notEqual (c : S) : OperandOf sym (.not (.comp .equal sym c))
  | notUnequal (c : S) : OperandOf sym (.not (.comp .unequal sym c))

theorem operandOf_joinSym1 (h : joinSym1 e = some sym) : OperandOf sym e := by
  rw [joinSym1.eq_def] at h
  split at h <;> first | cases h; constructor | cases h

theorem operandOf_joinSym2 (h : joinSym2 e = some sym) : OperandOf sym e := by
  rw [joinSym2.eq_def] at h
  split at h <;> first | cases h; constructor | cases h

namespace OperandOf

theorem eq_symbol (h : OperandOf sym e) (hp : isSymbol e = true) : e = .symbol sym := by
  cases h <;> first | rfl | cases hp

theorem eq_notSymbol (h : OperandOf sym e) (hp : isNotSymbol e = true) : e = .not (.symbol sym) := by
  cases h <;> first | rfl | cases hp

end OperandOf

/-- The two operands that a rule looks for, the one way round or the other. -/
theorem op_either {t : Junction} {p q : Expr S → Bool} {x y : Expr S} (v : Valuation d)
    (h1 : OperandOf sym e1) (h2 : OperandOf sym e2) (h : either p q e1 e2 = true)
    (hp : ∀ e, OperandOf sym e → p e = true → e = x) (hq : ∀ e, OperandOf sym e → q e = true → e = y) :
    t.op (exprCalcValue v e1) (exprCalcValue v e2) = t.op (exprCalcValue v x) (exprCalcValue v y) := by
  simp only [either, Bool.or_eq_true, Bool.and_eq_true] at h
  rcases h with ⟨hx, hy⟩ | ⟨hy, hx⟩
  · rw [hp e1 h1 hx, hq e2 h2 hy]
  · rw [hq e1 h1 hy, hp e2 h2 hx, t.op_comm]

end operands

section join
variable {rel : Rel} {c sym : S} {e e1 e2 z : Expr S} {t : Tristate} (v : Valuation d)

theorem OperandOf.eq_comp (h : OperandOf sym e) (hp : isComp rel c e = true) : e = .comp rel sym c := by
  cases h <;> try cases hp
  all_goals
    obtain ⟨rfl, rfl⟩ := of_decide_eq_true hp
    rfl

theorem op_either_comp {j : Junction} {rel' : Rel} {c' : S} (h1 : OperandOf sym e1) (h2 : OperandOf sym e2)
    (h : either (isComp rel c) (isComp rel' c') e1 e2 = true) :
    j.op (exprCalcValue v e1) (exprCalcValue v e2) =
      j.op (exprCalcValue v (.comp rel sym c)) (exprCalcValue v (.comp rel' sym c')) :=
  op_either v h1 h2 h (fun _ he hp => he.eq_comp hp) fun _ he hq => he.eq_comp hq

theorem op_either_symbol {j : Junction} (h1 : OperandOf sym e1) (h2 : OperandOf sym e2)
    (h : either isSymbol (isComp rel c) e1 e2 = true) :
    j.op (exprCalcValue v e1) (exprCalcValue v e2) =
      j.op (v.tri sym) (exprCalcValue v (.comp rel sym c)) :=
  op_either v h1 h2 h (fun _ he hp => he.eq_symbol hp) fun _ he hq => he.eq_comp hq

theorem op_either_equal {j : Junction} {a b : Tristate} (hs : d.IsTri sym) (h1 : OperandOf sym e1)
    (h2 : OperandOf sym e2)
    (h : either (isComp .equal (d.const a)) (isComp .equal (d.const b)) e1 e2 = true) :
    j.op (exprCalcValue v e1) (exprCalcValue v e2) =
      j.op (.ofBool (v.tri sym = a)) (.ofBool (v.tri sym = b)) := by
  rw [op_either_comp v h1 h2 h, v.calc_equal_const hs, v.calc_equal_const hs]

theorem op_either_unequal {j : Junction} {a b : Tristate} (hs : d.IsTri sym) (h1 : OperandOf sym e1)
    (h2 : OperandOf sym e2)
    (h : either (isComp .unequal (d.const a)) (isComp .unequal (d.const b)) e1 e2 = true) :
    j.op (exprCalcValue v e1) (exprCalcValue v e2) =
      j.op (.ofBool (v.tri sym ≠ a)) (.ofBool (v.tri sym ≠ b)) := by
  rw [op_either_comp v h1 h2 h, v.calc_unequal_const hs, v.calc_unequal_const hs]

theorem calc_joinOrRules (h1 : OperandOf sym e1) (h2 : OperandOf sym e2)
    (h : joinOrRules d sym e1 e2 = some z) :
    Junction.or.op (exprCalcValue v e1) (exprCalcValue v e2) = exprCalcValue v z := by
  rw [joinOrRules] at h
  split_ifs at h with htri hym hyn hmn hbool <;> cases h
  · refine (op_either_equal v (.inr htri) h1 h2 hym).trans ?_
    refine Eq.trans ?_ (v.calc_unequal_const (t := .no) (.inr htri)).symm
    cases v.tri sym <;> rfl
  · refine (op_either_equal v (.inr htri) h1 h2 hyn).trans ?_
    refine Eq.trans ?_ (v.calc_unequal_const (t := .mod) (.inr htri)).symm
    cases v.tri sym <;> rfl
  · refine (op_either_equal v (.inr htri) h1 h2 hmn).trans ?_
    refine Eq.trans ?_ (v.calc_unequal_const (t := .yes) (.inr htri)).symm
    cases v.tri sym <;> rfl
  · rw [op_either v h1 h2 hbool.2 (fun _ he hp => he.eq_notSymbol hp) fun _ he hq => he.eq_symbol hq]
    refine Eq.trans ?_ (v.calc_const .yes).symm
    have hmod := v.tri_ne_mod (v.type_of_eq_some hbool.1)
    show Tristate.or (v.tri sym).not (v.tri sym) = .yes
    rcases hsym : v.tri sym
    · rfl
    · exact absurd hsym hmod
    · rfl

theorem calc_joinConsts {b c : S} (htri : d.type sym = some .tristate)
    (hb : Expr.NumberFree d (.comp .equal sym b)) (hc : Expr.NumberFree d (.comp .unequal sym c))
    (h : joinConsts d sym b c = some z) :
    Junction.and.op (exprCalcValue v (.comp .equal sym b)) (exprCalcValue v (.comp .unequal sym c)) =
      exprCalcValue v z := by
  rw [joinConsts] at h
  split_ifs at h with hconst hne
  all_goals cases h
  · have hb' := v.compare_eq_iff_of_string (.inr htri) hconst.1 (hb htri hconst.1)
    have hc' := v.compare_eq_iff_of_string (.inr htri) hconst.2 (hc htri hconst.2)
    have hboth : v.compare sym b = .eq → v.compare sym c ≠ .eq := fun h h' =>
      hne (d.name_inj hconst.1 hconst.2 ((hb'.mp h).symm.trans (hc'.mp h')))
    simp only [exprCalcValue, Rel.holds]
    by_cases h : v.compare sym b = .eq
    · rw [h, bne_iff_ne.mpr (hboth h)]
      rfl
    · rw [beq_eq_false_iff_ne.mpr h]
      cases v.compare sym c != .eq <;> rfl
  · rw [of_not_not hne, v.calc_const .no]
    simp only [exprCalcValue, Rel.holds, bne]
    cases v.compare sym c == .eq <;> rfl

theorem calc_joinAndTristate (htri : d.type sym = some .tristate) (h1 : OperandOf sym e1)
    (h2 : OperandOf sym e2) (hn1 : e1.NumberFree d) (hn2 : e2.NumberFree d)
    (h : joinAndTristate d sym e1 e2 = some z) :
    Junction.and.op (exprCalcValue v e1) (exprCalcValue v e2) = exprCalcValue v z := by
  rw [joinAndTristate.eq_def] at h
  split at h
  · cases h1
    cases h2
    exact calc_joinConsts v htri hn1 hn2 h
  · cases h1
    cases h2
    rw [Junction.op_comm]
    exact calc_joinConsts v htri hn2 hn1 h
  · split_ifs at h with hyn hym hmn <;> cases h
    · rw [op_either_unequal v (.inr htri) h1 h2 hyn, v.calc_equal_const (.inr htri)]
      cases v.tri sym <;> rfl
    · rw [op_either_unequal v (.inr htri) h1 h2 hym, v.calc_equal_const (.inr htri)]
      cases v.tri sym <;> rfl
    · rw [op_either_unequal v (.inr htri) h1 h2 hmn, v.calc_equal_const (.inr htri)]
      cases v.tri sym <;> rfl

theorem calc_joinAndRules (h1 : OperandOf sym e1) (h2 : OperandOf sym e2)
    (hn1 : e1.NumberFree d) (hn2 : e2.NumberFree d) (h : joinAndRules d sym e1 e2 = some z) :
    Junction.and.op (exprCalcValue v e1) (exprCalcValue v e2) = exprCalcValue v z := by
  rw [joinAndRules] at h
  split_ifs at h with hs hy hnn hnm htri
  · cases h
    rw [op_either_symbol v h1 h2 hy, v.calc_equal_const hs]
    cases v.tri sym <;> rfl
  · cases h
    rw [op_either_symbol v h1 h2 hnn, v.calc_unequal_const hs]
    show _ = v.tri sym
    cases v.tri sym <;> rfl
  · cases h
    rw [op_either_symbol v h1 h2 hnm, v.calc_unequal_const hs, v.calc_equal_const hs]
    cases v.tri sym <;> rfl
  · exact calc_joinAndTristate v htri h1 h2 hn1 hn2 h

/-- Two operands are joined as equal ones or by a rule for the symbol they are both about. -/
theorem joinOperands_cases {rules : S → Expr S → Expr S → Option (Expr S)}
    (h : joinOperands d rules e1 e2 = some z) :
    (exprEq d e1 e2 = true ∧ z = e1) ∨
      ∃ sym, OperandOf sym e1 ∧ OperandOf sym e2 ∧ rules sym e1 e2 = some z := by
  rw [joinOperands] at h
  split_ifs at h with heq
  · exact .inl ⟨heq, (Option.some.inj h).symm⟩
  · split at h
    case h_1 sym1 sym2 hsym1 hsym2 =>
      split_ifs at h with hsym
      subst hsym
      exact .inr ⟨sym1, operandOf_joinSym1 hsym1, operandOf_joinSym2 hsym2, h⟩
    case h_2 => cases h

theorem calc_joinOperands {j : Junction} {rules : S → Expr S → Expr S → Option (Expr S)}
    (hrules : ∀ sym, OperandOf sym e1 → OperandOf sym e2 → rules sym e1 e2 = some z →
      j.op (exprCalcValue v e1) (exprCalcValue v e2) = exprCalcValue v z)
    (h : joinOperands d rules e1 e2 = some z) :
    j.op (exprCalcValue v e1) (exprCalcValue v e2) = exprCalcValue v z := by
  rcases joinOperands_cases h with ⟨heq, rfl⟩ | ⟨sym, h1, h2, hz⟩
  · rw [← exprEqDepth_sound v heq, j.op_self]
  · exact hrules sym h1 h2 hz

theorem calc_exprJoin {j : Junction} (hn1 : e1.NumberFree d) (hn2 : e2.NumberFree d)
    (h : exprJoin d j e1 e2 = some z) :
    j.op (exprCalcValue v e1) (exprCalcValue v e2) = exprCalcValue v z := by
  cases j
  · exact calc_joinOperands v (fun _ h1 h2 hz => calc_joinAndRules v h1 h2 hn1 hn2 hz) h
  · exact calc_joinOperands v (fun _ h1 h2 hz => calc_joinOrRules v h1 h2 hz) h

theorem joinConsts_cases {b : S} (h : joinConsts d sym b c = some z) :
    z = .comp .equal sym b ∨ z = .symbol (d.const .no) := by
  rw [joinConsts] at h
  split_ifs at h with hconst hne <;> cases h
  exacts [.inl rfl, .inr rfl]

theorem joinAndTristate_cases (h1 : OperandOf sym e1) (h2 : OperandOf sym e2)
    (h : joinAndTristate d sym e1 e2 = some z) :
    z = e1 ∨ z = e2 ∨ (∃ s, z = .symbol s) ∨ ∃ rel s t, z = .comp rel s (d.const t) := by
  rw [joinAndTristate.eq_def] at h
  split at h
  · cases h1
    exact (joinConsts_cases h).imp_right fun h => .inr (.inl ⟨_, h⟩)
  · cases h2
    exact .inr ((joinConsts_cases h).imp_right fun h => .inl ⟨_, h⟩)
  · split_ifs at h <;> exact .inr (.inr (.inr ⟨_, _, _, (Option.some.inj h).symm⟩))

/-- What two operands are joined to: one of them, a symbol, or a comparison with `y`, `m` or `n`. -/
theorem exprJoin_cases {j : Junction} (h : exprJoin d j e1 e2 = some z) :
    z = e1 ∨ z = e2 ∨ (∃ s, z = .symbol s) ∨ ∃ rel s t, z = .comp rel s (d.const t) := by
  cases j <;> rcases joinOperands_cases h with ⟨-, rfl⟩ | ⟨sym, h1, h2, hz⟩
  · exact .inl rfl
  · rw [joinAndRules] at hz
    split_ifs at hz
    · exact .inr (.inr (.inr ⟨_, _, _, (Option.some.inj hz).symm⟩))
    · exact .inr (.inr (.inl ⟨_, (Option.some.inj hz).symm⟩))
    · exact .inr (.inr (.inr ⟨_, _, _, (Option.some.inj hz).symm⟩))
    · exact joinAndTristate_cases h1 h2 hz
  · exact .inl rfl
  · rw [joinOrRules] at hz
    split_ifs at hz
    on_goal 4 => exact .inr (.inr (.inl ⟨_, (Option.some.inj hz).symm⟩))
    all_goals exact .inr (.inr (.inr ⟨_, _, _, (Option.some.inj hz).symm⟩))

/-- What operands are joined to has what both of them have, if symbols and comparisons with `y`, `m`
and `n` have it. -/
theorem exprJoin_rule {P : Expr S → Prop} {j : Junction} (hsym : ∀ s, P (.symbol s))
    (hcomp : ∀ rel s t, P (.comp rel s (d.const t))) (h1 : P e1) (h2 : P e2)
    (h : exprJoin d j e1 e2 = some z) : P z := by
  rcases exprJoin_cases h with rfl | rfl | ⟨s, rfl⟩ | ⟨rel, s, t, rfl⟩
  exacts [h1, h2, hsym s, hcomp rel s t]

end join

/-! ### What a pass keeps -/

namespace Expr
omit [DecidableEq S]

theorem one_le_size (e : Expr S) : 1 ≤ e.size := by
  cases e <;> simp [size]

/-- The places of a level, with the joints that hold them together. -/
theorem size_putLeaves {t : Junction} {e : Expr S} {es : List (Expr S)}
    (hlen : es.length = (leaves t e).length) :
    (putLeaves t e es).size + 1 = total (· + ·) 0 (fun x => x.size + 1) es := by
  induction e generalizing es with
  | junct t' l r ihl ihr =>
    by_cases ht : t' = t
    · subst ht
      rw [leaves_junct_self, List.length_append] at hlen
      have hl := @ihl (es.take (leaves t' l).length) (by rw [List.length_take, hlen]; omega)
      have hr := @ihr (es.drop (leaves t' l).length) (by rw [List.length_drop, hlen]; omega)
      rw [← List.take_append_drop (leaves t' l).length es, total_append, ← hl, ← hr,
        List.take_append_drop, putLeaves_junct_self, size]
      omega
    · rw [leaves_junct_ne ht, List.length_singleton] at hlen
      obtain ⟨x, rfl⟩ := List.length_eq_one_iff.mp hlen
      rw [putLeaves_junct_ne ht]
      rfl
  | _ =>
    obtain ⟨x, rfl⟩ := List.length_eq_one_iff.mp hlen
    rfl

theorem size_eq_total (t : Junction) (e : Expr S) :
    e.size + 1 = total (· + ·) 0 (fun x => x.size + 1) (leaves t e) := by
  have h := size_putLeaves (rfl : (leaves t e).length = (leaves t e).length)
  rwa [putLeaves_leaves] at h

theorem size_le_of_mem_leaves {t : Junction} {e x : Expr S} (h : x ∈ leaves t e) : x.size ≤ e.size := by
  induction e with
  | junct t' l r ihl ihr =>
    by_cases ht : t' = t
    · subst ht
      rw [leaves_junct_self] at h
      rw [size]
      rcases List.mem_append.mp h with h | h
      · exact Nat.le_trans (ihl h) (by omega)
      · exact Nat.le_trans (ihr h) (by omega)
    · rw [leaves_junct_ne ht, List.mem_singleton] at h
      rw [h]
  | _ => rw [List.mem_singleton.mp h]

theorem size_lt_of_mem_leaves {t : Junction} {l r x : Expr S} (h : x ∈ leaves t (junct t l r)) :
    x.size < (junct t l r).size := by
  rw [leaves_junct_self] at h
  rw [size]
  rcases List.mem_append.mp h with h | h
  · exact Nat.lt_of_le_of_lt (size_le_of_mem_leaves h) (by omega)
  · exact Nat.lt_of_le_of_lt (size_le_of_mem_leaves h) (by omega)

end Expr

section leaf
variable {nested nested' : Expr S → Expr S × ℕ} {t : Junction} {e1 e2 : Expr S}

theorem eliminateDupsLeaf_eq :
    eliminateDupsLeaf d nested t e1 e2 =
      match exprJoin d t (nested e1).1 e2 with
      | some tmp => (.symbol (d.const t.unit), tmp, (nested e1).2 + 1)
      | none => ((nested e1).1, e2, (nested e1).2) := rfl

/-- A visit joins the two operands or leaves them, after the nested work on the first. -/
theorem eliminateDupsLeaf_cases (d : Symbols S) (nested : Expr S → Expr S × ℕ) (t : Junction)
    (e1 e2 : Expr S) :
    (∃ z, exprJoin d t (nested e1).1 e2 = some z ∧
      eliminateDupsLeaf d nested t e1 e2 = (.symbol (d.const t.unit), z, (nested e1).2 + 1)) ∨
    (exprJoin d t (nested e1).1 e2 = none ∧
      eliminateDupsLeaf d nested t e1 e2 = ((nested e1).1, e2, (nested e1).2)) := by
  rw [eliminateDupsLeaf_eq]
  split
  case h_1 z hz => exact .inl ⟨z, hz, rfl⟩
  case h_2 hz => exact .inr ⟨hz, rfl⟩

theorem eliminateDupsLeaf_keep {P : Expr S → Prop} (hsym : ∀ s, P (.symbol s))
    (hcomp : ∀ rel s t, P (.comp rel s (d.const t))) (hnested : P (nested e1).1) (h2 : P e2) :
    P (eliminateDupsLeaf d nested t e1 e2).1 ∧ P (eliminateDupsLeaf d nested t e1 e2).2.1 := by
  rcases eliminateDupsLeaf_cases d nested t e1 e2 with ⟨z, hz, heq⟩ | ⟨-, heq⟩ <;> rw [heq]
  · exact ⟨hsym _, exprJoin_rule hsym hcomp hnested h2 hz⟩
  · exact ⟨hnested, h2⟩

end leaf

section pass
variable {n : ℕ} {t : Junction} {l r e : Expr S}

theorem exprEliminateDups1Depth_junct (n : ℕ) (t : Junction) (l r : Expr S) :
    exprEliminateDups1Depth d (n + 1) (.junct t l r) =
      ((Expr.junct t l r).putLeaves t (among (eliminateDupsLeaf d (exprEliminateDups1Depth d n) t)
          ((Expr.junct t l r).leaves t)).1,
        (among (eliminateDupsLeaf d (exprEliminateDups1Depth d n) t)
          ((Expr.junct t l r).leaves t)).2) := rfl

/-- Only levels are worked on. -/
theorem exprEliminateDups1Depth_cases (d : Symbols S) (n : ℕ) (e : Expr S) :
    exprEliminateDups1Depth d n e = (e, 0) ∨ ∃ m t l r, n = m + 1 ∧ e = .junct t l r := by
  cases n
  · exact .inl rfl
  · cases e
    case succ.junct t l r => exact .inr ⟨_, t, l, r, rfl, rfl⟩
    all_goals exact .inl rfl

theorem exprEliminateDups1Depth_idle (h : (exprEliminateDups1Depth d n e).2 = 0) :
    (exprEliminateDups1Depth d n e).1 = e := by
  induction n generalizing e with
  | zero => rfl
  | succ n ih =>
    rcases exprEliminateDups1Depth_cases d (n + 1) e with heq | ⟨m, t, l, r, -, rfl⟩
    · rw [heq]
    · rw [exprEliminateDups1Depth_junct] at h ⊢
      show Expr.putLeaves t (.junct t l r) _ = _
      rw [among_idle ?_ h, Expr.putLeaves_leaves]
      intro x y hk
      rcases eliminateDupsLeaf_cases d (exprEliminateDups1Depth d n) t x y with
        ⟨z, -, heq⟩ | ⟨-, heq⟩ <;> rw [heq] at hk ⊢
      · cases hk
      · exact ⟨ih hk, rfl⟩

/-- A pass makes no expression larger. -/
theorem size_exprEliminateDups1Depth (d : Symbols S) (n : ℕ) (e : Expr S) :
    (exprEliminateDups1Depth d n e).1.size ≤ e.size := by
  induction n generalizing e with
  | zero => exact Nat.le_refl _
  | succ n ih =>
    rcases exprEliminateDups1Depth_cases d (n + 1) e with heq | ⟨m, t, l, r, -, rfl⟩
    · rw [heq]
    · rw [exprEliminateDups1Depth_junct]
      have htotal := @total_among _ _ (· + ·) 0 _ _ (fun x : Expr S => x.size + 1)
        ((Expr.junct t l r).leaves t) (eliminateDupsLeaf d (exprEliminateDups1Depth d n) t)
        (fun _ => True) (· ≥ ·) _ (fun a b c h => Nat.add_le_add_right h c)
        (fun _ _ _ _ => ⟨trivial, trivial⟩) ?_ fun _ _ => trivial
      · rw [← Expr.size_putLeaves (length_among _), ← Expr.size_eq_total] at htotal
        exact Nat.le_of_add_le_add_right htotal
      · intro x y _ _
        have hx := ih x
        have hone := x.one_le_size
        have hone' := (exprEliminateDups1Depth d n x).1.one_le_size
        have hone'' := y.one_le_size
        rcases eliminateDupsLeaf_cases d (exprEliminateDups1Depth d n) t x y with
          ⟨z, hz, heq⟩ | ⟨-, heq⟩ <;> rw [heq]
        · have hsize : z.size + 1 ≤ x.size + y.size := by
            refine exprJoin_rule (P := fun z => z.size + 1 ≤ x.size + y.size) ?_ ?_ ?_ ?_ hz
            · intro s
              show 1 + 1 ≤ _
              omega
            · intro rel s t
              show 1 + 1 ≤ _
              omega
            · omega
            · omega
          show x.size + 1 + (y.size + 1) ≥ 1 + 1 + (z.size + 1)
          omega
        · show x.size + 1 + (y.size + 1) ≥ (exprEliminateDups1Depth d n x).1.size + 1 + (y.size + 1)
          omega

theorem size_eliminateDupsLeaf_lt {k : ℕ} {x y : Expr S} (hx : x.size < k) (hy : y.size < k) :
    (eliminateDupsLeaf d (exprEliminateDups1Depth d n) t x y).1.size < k ∧
      (eliminateDupsLeaf d (exprEliminateDups1Depth d n) t x y).2.1.size < k := by
  have hone := Nat.lt_of_le_of_lt x.one_le_size hx
  exact eliminateDupsLeaf_keep (P := fun x => x.size < k) (fun _ => hone) (fun _ _ _ => hone)
    (Nat.lt_of_le_of_lt (size_exprEliminateDups1Depth d n x) hx) hy

/-- Deep enough, the depth makes no difference. -/
theorem exprEliminateDups1Depth_congr {m : ℕ} (hn : e.size ≤ n) (hm : e.size ≤ m) :
    exprEliminateDups1Depth d n e = exprEliminateDups1Depth d m e := by
  induction n generalizing m e with
  | zero => exact absurd (e.one_le_size.trans hn) (by omega)
  | succ n ih =>
    obtain ⟨m, rfl⟩ := Nat.exists_eq_add_one.mpr (e.one_le_size.trans hm)
    rcases e with s | e | ⟨t, l, r⟩ | ⟨rel, s, s'⟩
    case junct =>
      have hcongr := @among_congr _ (eliminateDupsLeaf d (exprEliminateDups1Depth d n) t)
        (eliminateDupsLeaf d (exprEliminateDups1Depth d m) t)
        (fun x => x.size < (Expr.junct t l r).size) (fun x y hx hy => size_eliminateDupsLeaf_lt hx hy)
        (fun x y hx hy => ?_) _ (fun x hx => Expr.size_lt_of_mem_leaves hx)
      · rw [exprEliminateDups1Depth_junct, exprEliminateDups1Depth_junct, hcongr]
      · rw [eliminateDupsLeaf_eq, eliminateDupsLeaf_eq,
          ih (Nat.le_of_lt_succ (Nat.lt_of_lt_of_le hx hn)) (Nat.le_of_lt_succ (Nat.lt_of_lt_of_le hx hm))]
    all_goals rfl

/-- `expr_eliminate_dups1`, as the source has it. -/
theorem exprEliminateDups1_junct (d : Symbols S) (t : Junction) (l r : Expr S) :
    exprEliminateDups1 d (.junct t l r) =
      ((Expr.junct t l r).putLeaves t
          (among (eliminateDupsLeaf d (exprEliminateDups1 d) t) ((Expr.junct t l r).leaves t)).1,
        (among (eliminateDupsLeaf d (exprEliminateDups1 d) t) ((Expr.junct t l r).leaves t)).2) := by
  have hcongr := @among_congr _ (eliminateDupsLeaf d (exprEliminateDups1Depth d (l.size + r.size)) t)
    (eliminateDupsLeaf d (exprEliminateDups1 d) t)
    (fun x => x.size < (Expr.junct t l r).size) (fun x y hx hy => size_eliminateDupsLeaf_lt hx hy)
    (fun x y hx hy => ?_) _ (fun x hx => Expr.size_lt_of_mem_leaves hx)
  · rw [exprEliminateDups1, Expr.size, exprEliminateDups1Depth_junct, hcongr]
  · rw [eliminateDupsLeaf_eq, eliminateDupsLeaf_eq, exprEliminateDups1,
      exprEliminateDups1Depth_congr (Nat.le_of_lt_succ hx) (Nat.le_refl _)]

end pass

/-! ### What all passes keep -/

section keep
variable {P : Expr S → Prop} (hsym : ∀ s, P (.symbol s)) (hcomp : ∀ rel s t, P (.comp rel s (d.const t)))
  (hjunct : ∀ t l r, P (.junct t l r) ↔ P l ∧ P r)

omit [DecidableEq S] in
include hjunct in
theorem Expr.of_mem_leaves {t : Junction} {e x : Expr S} (h : P e) (hx : x ∈ e.leaves t) : P x := by
  induction e with
  | junct t' l r ihl ihr =>
    by_cases ht : t' = t
    · subst ht
      rw [leaves_junct_self] at hx
      rcases List.mem_append.mp hx with hx | hx
      exacts [ihl ((hjunct _ _ _).mp h).1 hx, ihr ((hjunct _ _ _).mp h).2 hx]
    · rw [leaves_junct_ne ht, List.mem_singleton] at hx
      rwa [hx]
  | _ => rwa [List.mem_singleton.mp hx]

include hsym hcomp hjunct

theorem exprEliminateDups1Depth_keep {n : ℕ} {e : Expr S} (h : P e) :
    P (exprEliminateDups1Depth d n e).1 := by
  induction n generalizing e with
  | zero => exact h
  | succ n ih =>
    rcases exprEliminateDups1Depth_cases d (n + 1) e with heq | ⟨m, t, l, r, -, rfl⟩
    · rwa [heq]
    · refine Expr.putLeaves_rule (fun hl hr => (hjunct _ _ _).mpr ⟨hl, hr⟩) (length_among _) ?_
      exact among_keep (fun x y hx hy => eliminateDupsLeaf_keep hsym hcomp (ih hx) hy)
        fun x hx => Expr.of_mem_leaves hjunct h hx

omit hcomp in
theorem exprEliminateYn_keep {e : Expr S} (h : P e) : P (exprEliminateYn d e) := by
  induction e with
  | junct t l r ihl ihr =>
    obtain ⟨hl, hr⟩ := (hjunct _ _ _).mp h
    rw [exprEliminateYn]
    split_ifs
    exacts [hsym _, ihr hr, hsym _, ihl hl, (hjunct _ _ _).mpr ⟨ihl hl, ihr hr⟩]
  | _ => exact h

end keep

/-! ### The value -/

theorem numberFree_exprEliminateDups1Depth {n : ℕ} {e : Expr S} (h : e.NumberFree d) :
    (exprEliminateDups1Depth d n e).1.NumberFree d :=
  exprEliminateDups1Depth_keep (P := Expr.NumberFree d) (fun _ => trivial) Expr.numberFree_comp_const
    (fun _ _ _ => Iff.rfl) h

theorem calc_exprEliminateDups1Depth (v : Valuation d) {n : ℕ} {e : Expr S} (h : e.NumberFree d) :
    exprCalcValue v (exprEliminateDups1Depth d n e).1 = exprCalcValue v e := by
  induction n generalizing e with
  | zero => rfl
  | succ n ih =>
    rcases exprEliminateDups1Depth_cases d (n + 1) e with heq | ⟨m, t, l, r, -, rfl⟩
    · rw [heq]
    · have htotal := @total_among _ _ t.op t.unit _ _ (exprCalcValue v)
        ((Expr.junct t l r).leaves t) (eliminateDupsLeaf d (exprEliminateDups1Depth d n) t)
        (Expr.NumberFree d) (· = ·) _ (fun a b c h => by rw [h]) ?_ ?_
        fun x hx => Expr.of_mem_leaves (fun _ _ _ => Iff.rfl) h hx
      · rw [exprEliminateDups1Depth_junct]
        show exprCalcValue v ((Expr.junct t l r).putLeaves t _) = _
        rw [Expr.calc_putLeaves v (length_among _), ← htotal, ← Expr.calc_leaves]
      · intro x y hx hy
        exact eliminateDupsLeaf_keep (P := Expr.NumberFree d) (fun _ => trivial)
          Expr.numberFree_comp_const (numberFree_exprEliminateDups1Depth hx) hy
      · intro x y hx hy
        rcases eliminateDupsLeaf_cases d (exprEliminateDups1Depth d n) t x y with
          ⟨z, hz, heq⟩ | ⟨-, heq⟩ <;> rw [heq]
        · rw [v.calc_const, ← calc_exprJoin v (numberFree_exprEliminateDups1Depth hx) hy hz, ih hx]
          exact (Std.LawfulLeftIdentity.left_id _).symm
        · rw [ih hx]

/-! ### The passes come to an end -/

namespace Expr

/-- There is a level with the constant among its operands that says nothing there. -/
def HasUnit (d : Symbols S) : Expr S → Prop
  | junct t l r => (l = symbol (d.const t.unit) ∨ HasUnit d l) ∨ r = symbol (d.const t.unit) ∨ HasUnit d r
  | _ => False

end Expr

theorem size_exprEliminateYn_le (e : Expr S) : (exprEliminateYn d e).size ≤ e.size := by
  induction e with
  | junct t l r ihl ihr =>
    rw [exprEliminateYn, Expr.size]
    split_ifs
    · exact Nat.le_add_left 1 _
    · omega
    · exact Nat.le_add_left 1 _
    · omega
    · rw [Expr.size]
      omega
  | _ => exact Nat.le_refl _

theorem size_exprEliminateYn_lt {e : Expr S} (h : e.HasUnit d) : (exprEliminateYn d e).size < e.size := by
  induction e with
  | junct t l r ihl ihr =>
    have hl := @size_exprEliminateYn_le _ _ d l
    have hr := @size_exprEliminateYn_le _ _ d r
    have hl1 := l.one_le_size
    have hr1 := r.one_le_size
    rw [exprEliminateYn, Expr.size]
    split_ifs with h1 h2 h3 h4
    · show 1 < _
      omega
    · omega
    · show 1 < _
      omega
    · omega
    · rw [Expr.size]
      rcases h with (rfl | h) | rfl | h
      · exact absurd rfl h2
      · have := ihl h
        omega
      · exact absurd rfl h4
      · have := ihr h
        omega
  | _ => exact h.elim

omit [DecidableEq S] in
/-- An operand that has been joined marks the level it was joined in. -/
theorem Expr.hasUnit_putLeaves {t : Junction} {e : Expr S} {es : List (Expr S)}
    (hlen : es.length = (e.leaves t).length)
    (h : ∃ x ∈ es, x = .symbol (d.const t.unit) ∨ x.HasUnit d) :
    e.putLeaves t es = .symbol (d.const t.unit) ∨ (e.putLeaves t es).HasUnit d := by
  induction e generalizing es with
  | junct t' l r ihl ihr =>
    by_cases ht : t' = t
    · subst ht
      rw [leaves_junct_self, List.length_append] at hlen
      have hl := @ihl (es.take (l.leaves t').length) (by rw [List.length_take, hlen]; omega)
      have hr := @ihr (es.drop (l.leaves t').length) (by rw [List.length_drop, hlen]; omega)
      obtain ⟨x, hx, hmark⟩ := h
      rw [putLeaves_junct_self]
      rw [← List.take_append_drop (l.leaves t').length es] at hx
      rcases List.mem_append.mp hx with hx | hx
      · exact .inr (.inl (hl ⟨x, hx, hmark⟩))
      · exact .inr (.inr (hr ⟨x, hx, hmark⟩))
    · rw [leaves_junct_ne ht, List.length_singleton] at hlen
      obtain ⟨y, rfl⟩ := List.length_eq_one_iff.mp hlen
      obtain ⟨x, hx, hmark⟩ := h
      rw [putLeaves_junct_ne ht]
      rwa [List.mem_singleton.mp hx] at hmark
  | _ =>
    obtain ⟨y, rfl⟩ := List.length_eq_one_iff.mp hlen
    obtain ⟨x, hx, hmark⟩ := h
    rwa [List.mem_singleton.mp hx] at hmark

/-- A pass that has joined something leaves a constant to be taken out. -/
theorem hasUnit_exprEliminateDups1Depth {n : ℕ} {e : Expr S}
    (h : 0 < (exprEliminateDups1Depth d n e).2) : (exprEliminateDups1Depth d n e).1.HasUnit d := by
  induction n generalizing e with
  | zero => cases h
  | succ n ih =>
    rcases exprEliminateDups1Depth_cases d (n + 1) e with heq | ⟨m, t, l, r, -, rfl⟩
    · rw [heq] at h
      cases h
    · rw [exprEliminateDups1Depth_junct] at h ⊢
      have hmark := @among_rule _ (eliminateDupsLeaf d (exprEliminateDups1Depth d n) t)
        (fun es k => 0 < k → ∃ x ∈ es, x = .symbol (d.const t.unit) ∨ x.HasUnit d) ?_ ?_
        ((Expr.junct t l r).leaves t) (fun h => absurd h (Nat.lt_irrefl 0)) h
      · rcases Expr.hasUnit_putLeaves (length_among _) hmark with heq | hunit
        · rw [Expr.putLeaves_junct_self] at heq
          cases heq
        · exact hunit
      · rintro us vs k hp hinv hk
        obtain ⟨x, hx, hmark⟩ := hinv hk
        exact ⟨x, hp.subset hx, hmark⟩
      · rintro x y us k hinv hk
        rcases eliminateDupsLeaf_cases d (exprEliminateDups1Depth d n) t x y with
          ⟨z, -, heq⟩ | ⟨-, heq⟩ <;> rw [heq] at hk ⊢
        · exact ⟨_, List.mem_cons_self, .inl rfl⟩
        · rcases Nat.eq_zero_or_pos (exprEliminateDups1Depth d n x).2 with h0 | hpos
          · rw [exprEliminateDups1Depth_idle h0]
            rw [h0, Nat.add_zero] at hk
            exact hinv hk
          · exact ⟨_, List.mem_cons_self, .inr (ih hpos)⟩

theorem size_pass_lt {e : Expr S} (h : (exprEliminateDups1 d e).2 ≠ 0) :
    (exprEliminateYn d (exprEliminateDups1 d e).1).size < e.size :=
  Nat.lt_of_lt_of_le (size_exprEliminateYn_lt (hasUnit_exprEliminateDups1Depth (Nat.pos_of_ne_zero h)))
    (size_exprEliminateDups1Depth d _ e)

theorem exprEliminateDupsPasses_succ (n : ℕ) (e : Expr S) :
    exprEliminateDupsPasses d (n + 1) e =
      if (exprEliminateDups1 d e).2 = 0 then (exprEliminateDups1 d e).1
      else exprEliminateDupsPasses d n (exprEliminateYn d (exprEliminateDups1 d e).1) := rfl

/-- With as many passes as the expression is large, the bound makes no difference. -/
theorem exprEliminateDupsPasses_congr {n m : ℕ} {e : Expr S} (hn : e.size ≤ n) (hm : e.size ≤ m) :
    exprEliminateDupsPasses d n e = exprEliminateDupsPasses d m e := by
  induction n generalizing m e with
  | zero => exact absurd (e.one_le_size.trans hn) (by omega)
  | succ n ih =>
    obtain ⟨m, rfl⟩ := Nat.exists_eq_add_one.mpr (e.one_le_size.trans hm)
    rw [exprEliminateDupsPasses_succ, exprEliminateDupsPasses_succ]
    split_ifs with h
    · rfl
    · have hlt := size_pass_lt h
      exact ih (by omega) (by omega)

/-- `expr_eliminate_dups`, as the source has it: a pass, and all of it again if something was
joined. -/
theorem exprEliminateDups_eq (d : Symbols S) (e : Expr S) :
    exprEliminateDups d e =
      if (exprEliminateDups1 d e).2 = 0 then (exprEliminateDups1 d e).1
      else exprEliminateDups d (exprEliminateYn d (exprEliminateDups1 d e).1) := by
  obtain ⟨n, hn⟩ := Nat.exists_eq_add_one.mpr e.one_le_size
  have heq : exprEliminateDups d e = exprEliminateDupsPasses d (n + 1) e := by
    rw [← hn]
    rfl
  rw [heq, exprEliminateDupsPasses_succ]
  split_ifs with h
  · rfl
  · have hlt := size_pass_lt h
    exact exprEliminateDupsPasses_congr (by omega) (Nat.le_refl _)

/-- What a pass and the elimination of constants keep, all of the passes keep; at their end is an
expression that a pass leaves alone. -/
theorem exprEliminateDups_rule {P : Expr S → Prop} (hpass : ∀ e, P e → P (exprEliminateDups1 d e).1)
    (hyn : ∀ e, P e → P (exprEliminateYn d e)) {e : Expr S} (h : P e) :
    P (exprEliminateDups d e) ∧ (exprEliminateDups1 d (exprEliminateDups d e)).2 = 0 := by
  induction hsize : e.size using Nat.strong_induction_on generalizing e with
  | _ n ih =>
    rw [exprEliminateDups_eq]
    split_ifs with h0
    · have hidle := exprEliminateDups1Depth_idle h0
      rw [exprEliminateDups1, hidle]
      exact ⟨h, h0⟩
    · exact ih _ (hsize ▸ size_pass_lt h0) (hyn _ (hpass e h)) rfl

/-! ### What the passes come to -/

namespace Expr

/-- The levels of an expression: the one it begins, and those of the operands. -/
inductive Level : Expr S → Expr S → Prop
  | self (t : Junction) (l r : Expr S) : Level (junct t l r) (junct t l r)
  | operand {t : Junction} {l r x e : Expr S} (hx : x ∈ leaves t (junct t l r)) (h : Level e x) :
      Level e (junct t l r)

omit [DecidableEq S] in
theorem two_le_length_leaves (t : Junction) (l r : Expr S) : 2 ≤ (leaves t (junct t l r)).length := by
  have hone : ∀ e : Expr S, 1 ≤ (leaves t e).length := by
    intro e
    induction e with
    | junct t' l r ihl ihr =>
      by_cases ht : t' = t
      · subst ht
        rw [leaves_junct_self, List.length_append]
        omega
      · rw [leaves_junct_ne ht, List.length_singleton]
    | _ => exact Nat.le_refl 1
  have hl := hone l
  have hr := hone r
  rw [leaves_junct_self, List.length_append]
  omega

end Expr

theorem eliminateDupsLeaf_zero {nested : Expr S → Expr S × ℕ} {t : Junction} {x y : Expr S}
    (hidle : ∀ x, (nested x).2 = 0 → (nested x).1 = x)
    (h : (eliminateDupsLeaf d nested t x y).2.2 = 0) :
    (nested x).2 = 0 ∧ exprJoin d t x y = none := by
  rcases eliminateDupsLeaf_cases d nested t x y with ⟨z, -, heq⟩ | ⟨hz, heq⟩ <;> rw [heq] at h
  · cases h
  · rw [hidle x h] at hz
    exact ⟨h, hz⟩

/-- Where a pass joins nothing, no two operands of a level can be joined, on any level. -/
theorem joinless_of_pass {e e' : Expr S} {t : Junction} {l r : Expr S}
    (h : (exprEliminateDups1 d e).2 = 0) (hlevel : Expr.Level e' e) (he' : e' = .junct t l r) :
    (e'.leaves t).Pairwise fun x y => exprJoin d t x y = none ∧ exprJoin d t y x = none := by
  have hidle : ∀ x, (exprEliminateDups1 d x).2 = 0 → (exprEliminateDups1 d x).1 = x :=
    fun _ h => exprEliminateDups1Depth_idle h
  have hwork : ∀ {t l r}, (exprEliminateDups1 d (.junct t l r)).2 = 0 →
      ((Expr.junct t l r).leaves t).Pairwise fun x y =>
        ((exprEliminateDups1 d x).2 = 0 ∧ exprJoin d t x y = none) ∧
          (exprEliminateDups1 d y).2 = 0 ∧ exprJoin d t y x = none := by
    intro t l r h
    rw [exprEliminateDups1_junct] at h
    refine (pairwise_of_among_zero (fun x y h => ?_) h).imp fun hxy =>
      ⟨eliminateDupsLeaf_zero hidle hxy.1, eliminateDupsLeaf_zero hidle hxy.2⟩
    rcases eliminateDupsLeaf_cases d (exprEliminateDups1 d) t x y with ⟨z, -, heq⟩ | ⟨-, heq⟩ <;>
      rw [heq] at h ⊢
    · cases h
    · exact ⟨hidle x h, rfl⟩
  induction hlevel with
  | self t' l' r' =>
    cases he'
    exact (hwork h).imp fun hxy => ⟨hxy.1.2, hxy.2.2⟩
  | @operand t' l' r' x e' hx hlevel ih =>
    -- an operand meets another one, and is worked on before they are joined
    refine ih ?_ he'
    obtain ⟨y, z, rest, hlist⟩ : ∃ y z rest, (Expr.junct t' l' r').leaves t' = y :: z :: rest := by
      have hlen := Expr.two_le_length_leaves t' l' r'
      rcases hl : (Expr.junct t' l' r').leaves t' with _ | ⟨y, _ | ⟨z, rest⟩⟩ <;> rw [hl] at hlen
      · exact absurd hlen (Nat.not_succ_le_zero 1)
      · exact absurd hlen (Nat.not_succ_le_self 1)
      · exact ⟨y, z, rest, rfl⟩
    have hpairs := hwork h
    rw [hlist] at hpairs hx
    obtain ⟨hy, hz⟩ := List.pairwise_cons.mp hpairs
    rcases List.mem_cons.mp hx with rfl | hx
    · exact (hy z List.mem_cons_self).1.1
    · exact (hy x hx).2.1

/-- What symbols and comparisons with `y`, `m` and `n` have, `expr_eliminate_dups` keeps. -/
theorem exprEliminateDups_keep {P : Expr S → Prop} (hsym : ∀ s, P (.symbol s))
    (hcomp : ∀ rel s t, P (.comp rel s (d.const t))) (hjunct : ∀ t l r, P (.junct t l r) ↔ P l ∧ P r)
    {e : Expr S} (h : P e) : P (exprEliminateDups d e) :=
  (exprEliminateDups_rule (fun _ h => exprEliminateDups1Depth_keep hsym hcomp hjunct h)
    (fun _ h => exprEliminateYn_keep hsym hjunct h) h).1

/-- `expr_eliminate_dups` does not change the value, whatever the values of the symbols are. -/
theorem exprCalcValue_exprEliminateDups {e : Expr S} (h : e.NumberFree d) (v : Valuation d) :
    exprCalcValue v (exprEliminateDups d e) = exprCalcValue v e := by
  refine (exprEliminateDups_rule
    (P := fun e' => exprCalcValue v e' = exprCalcValue v e ∧ e'.NumberFree d) ?_ ?_ ⟨rfl, h⟩).1.1
  · rintro e' ⟨hval, hfree⟩
    exact ⟨(calc_exprEliminateDups1Depth v hfree).trans hval, numberFree_exprEliminateDups1Depth hfree⟩
  · rintro e' ⟨hval, hfree⟩
    exact ⟨(calc_exprEliminateYn v e').trans hval,
      exprEliminateYn_keep (P := Expr.NumberFree d) (fun _ => trivial) (fun _ _ _ => Iff.rfl) hfree⟩

/-- The passes end with an expression that has, on no level, two operands that could be joined. -/
theorem joinless_exprEliminateDups (d : Symbols S) (e : Expr S) (t : Junction) (l r : Expr S)
    (hlevel : Expr.Level (.junct t l r) (exprEliminateDups d e)) :
    ((Expr.junct t l r).leaves t).Pairwise fun x y =>
      exprJoin d t x y = none ∧ exprJoin d t y x = none :=
  joinless_of_pass (exprEliminateDups_rule (P := fun _ => True) (fun _ _ => trivial)
    (fun _ _ => trivial) trivial).2 hlevel rfl

theorem exprEliminateDups_idem (d : Symbols S) (e : Expr S) :
    exprEliminateDups d (exprEliminateDups d e) = exprEliminateDups d e := by
  obtain ⟨-, h0⟩ := @exprEliminateDups_rule _ _ d (fun _ => True) (fun _ _ => trivial)
    (fun _ _ => trivial) e trivial
  rw [exprEliminateDups_eq d (exprEliminateDups d e), if_pos h0]
  exact exprEliminateDups1Depth_idle h0

/-- `expr_eliminate_dups` keeps the value where no tristate is compared with a number, and leaves
nothing that it could do again. -/
theorem exprEliminateDups_gives (e : Expr S) :
    (e.NumberFree d → ∀ v : Valuation d,
        exprCalcValue v (exprEliminateDups d e) = exprCalcValue v e) ∧
      exprEliminateDups d (exprEliminateDups d e) = exprEliminateDups d e ∧
      ∀ t l r, Expr.Level (.junct t l r) (exprEliminateDups d e) →
        ((Expr.junct t l r).leaves t).Pairwise fun x y =>
          exprJoin d t x y = none ∧ exprJoin d t y x = none :=
  ⟨exprCalcValue_exprEliminateDups, exprEliminateDups_idem d e, joinless_exprEliminateDups d e⟩

theorem exprEliminateDups_gives_twice :
    exprEliminateDups (Symbols.ofValues fun _ => none)
        (.junct .or operandA (.junct .or operandB operandA)) = .junct .or operandB operandA ∧
      ∀ v : Valuation (Symbols.ofValues fun _ => none),
        exprCalcValue v (.junct .or operandB operandA) =
          exprCalcValue v (.junct .or operandA (.junct .or operandB operandA)) := by
  have hdups : exprEliminateDups (Symbols.ofValues fun _ => none)
      (.junct .or operandA (.junct .or operandB operandA)) = .junct .or operandB operandA := by
    decide
  refine ⟨hdups, ?_⟩
  rw [← hdups]
  have hfree : Expr.NumberFree (Symbols.ofValues fun _ => none)
      (.junct .or operandA (.junct .or operandB operandA)) := ⟨trivial, trivial, trivial⟩
  exact (exprEliminateDups_gives _).1 hfree

end Dir842.Kconfig
