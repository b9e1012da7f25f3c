import Dir842.Kconfig.ExprDups
import Dir842.Lib.Fuel

/-!
# Rewriting conditions (`expr_transform`, `expr_trans_compare`, `expr_trans_bool`, `rewrite_m`)

`expr_transform` moves negations down to the symbols. It rewrites what it has rewritten already:
below a negation the operands are transformed first, and the joint of the two negations again. The
second time finds nothing to do, so that the recursion comes to an end.

`expr_trans_compare` compares a whole expression with `y` or `n`, leaf by leaf; `expr_trans_bool`
gives up the difference between `m` and `y`.
-/

namespace Dir842.Kconfig
open Fuel

variable {S : Type*} [DecidableEq S] (d : Symbols S)

/-! ### `expr_transform` -/

def Rel.negate : Rel → Rel
  | equal => unequal
  | unequal => equal
  | leq => gth
  | geq => lth
  | lth => geq
  | gth => leq

def Junction.dual : Junction → Junction
  | and => or
  | or => and

/-- A comparison of the `bool` `l` with `n`, `m` or `y` says no more than the symbol. -/
def transformBoolComp (l r : S) : Rel → Expr S
  | .equal =>
    if r = d.const .no then .not (.symbol l)
    else if r = d.const .mod then .symbol (d.const .no)
    else if r = d.const .yes then .symbol l
    else .comp .equal l r
  | .unequal =>
    if r = d.const .no then .symbol l
    else if r = d.const .mod then .symbol (d.const .yes)
    else if r = d.const .yes then .not (.symbol l)
    else .comp .unequal l r
  | rel => .comp rel l r

def transformComp (rel : Rel) (l r : S) : Expr S :=
  if d.type l = some .boolean then transformBoolComp d l r rel else .comp rel l r

/-- The negation of a symbol -/
def transformNotSymbol (s : S) : Expr S :=
  if s = d.const .yes then .symbol (d.const .no)
  else if s = d.const .mod then .symbol (d.const .mod)
  else if s = d.const .no then .symbol (d.const .yes)
  else .not (.symbol s)

/-- `expr_transform`, with `n` for the depth of the recursion. -/
def exprTransformDepth : ℕ → Expr S → Option (Expr S)
  | 0, _ => none
  | _ + 1, .symbol s => some (.symbol s)
  | _ + 1, .comp rel l r => some (transformComp d rel l r)
  | n + 1, .junct t l r =>
    (exprTransformDepth n l).bind fun l => (exprTransformDepth n r).map fun r => .junct t l r
  | n + 1, .not e =>
    (exprTransformDepth n e).bind fun e =>
      match e with
      -- !!a -> a
      | .not a => exprTransformDepth n a
      -- !a='x' -> a!='x', !a<='x' -> a>'x' and the like
      | .comp rel l r => some (.comp rel.negate l r)
      -- !(a || b) -> !a && !b, !(a && b) -> !a || !b
      | .junct t a b => exprTransformDepth n (.junct t.dual (.not a) (.not b))
      | .symbol s => some (transformNotSymbol d s)

/-- The negation of an expression in which negations stand at symbols only. -/
def transformNot : Expr S → Expr S
  | .symbol s => transformNotSymbol d s
  | .not a => a
  | .comp rel l r => .comp rel.negate l r
  | .junct t a b => .junct t.dual (transformNot a) (transformNot b)

/-- What `expr_transform` gives. -/
def exprTransform : Expr S → Expr S
  | .symbol s => .symbol s
  | .comp rel l r => transformComp d rel l r
  | .junct t l r => .junct t (exprTransform l) (exprTransform r)
  | .not e => transformNot d (exprTransform e)

namespace Expr

/-- Negations stand at symbols other than `y`, `m` and `n`, and no `bool` is compared with these. -/
def Normal (d : Symbols S) : Expr S → Prop
  | symbol _ => True
  | not (symbol s) => ∀ t, s ≠ d.const t
  | not _ => False
  | comp rel l r => d.type l = some .boolean → rel = .equal ∨ rel = .unequal → ∀ t, r ≠ d.const t
  | junct _ l r => Normal d l ∧ Normal d r

end Expr

variable {d}

omit [DecidableEq S] in
theorem ne_const_of_type {s : S} {type : SymType} (h : d.type s = some type) (t : Tristate) :
    s ≠ d.const t := by
  rintro rfl
  rw [d.type_const] at h
  cases h

theorem normal_transformBoolComp {l : S} (hl : d.type l = some .boolean) (r : S) (rel : Rel) :
    (transformBoolComp d l r rel).Normal d := by
  have hother : r ≠ d.const .no → r ≠ d.const .mod → r ≠ d.const .yes → ∀ t, r ≠ d.const t := by
    rintro hn hm hy (_ | _ | _)
    exacts [hn, hm, hy]
  cases rel
  case equal =>
    rw [transformBoolComp]
    split_ifs with hn hm hy
    exacts [ne_const_of_type hl, trivial, trivial, fun _ _ => hother hn hm hy]
  case unequal =>
    rw [transformBoolComp]
    split_ifs with hn hm hy
    exacts [trivial, trivial, ne_const_of_type hl, fun _ _ => hother hn hm hy]
  all_goals exact fun _ hrel => absurd hrel (by simp)

theorem normal_transformComp (rel : Rel) (l r : S) : (transformComp d rel l r).Normal d := by
  rw [transformComp]
  split_ifs with hl
  · exact normal_transformBoolComp hl r rel
  · exact fun h => absurd h hl

theorem normal_transformNot {e : Expr S} (h : e.Normal d) : (transformNot d e).Normal d := by
  induction e with
  | symbol s =>
    rw [transformNot, transformNotSymbol]
    split_ifs with hy hm hn
    · trivial
    · trivial
    · trivial
    · rintro t rfl
      cases t
      exacts [hn rfl, hm rfl, hy rfl]
  | not a =>
    cases a
    case symbol => trivial
    all_goals exact h.elim
  | comp rel l r =>
    rintro hl hrel
    refine h hl ?_
    cases rel <;> simp [Rel.negate] at hrel ⊢
  | junct t a b iha ihb => exact ⟨iha h.1, ihb h.2⟩

theorem normal_exprTransform (e : Expr S) : (exprTransform d e).Normal d := by
  induction e with
  | symbol s => trivial
  | comp rel l r => exact normal_transformComp rel l r
  | junct t l r ihl ihr => exact ⟨ihl, ihr⟩
  | not e ih => exact normal_transformNot ih

/-! ### The recursion comes to an end -/

theorem transformComp_of_normal {rel : Rel} {l r : S} (h : (Expr.comp rel l r).Normal d) :
    transformComp d rel l r = .comp rel l r := by
  rw [transformComp]
  split_ifs with hl
  · cases rel
    case equal =>
      have hne := h hl (.inl rfl)
      rw [transformBoolComp, if_neg (hne .no), if_neg (hne .mod), if_neg (hne .yes)]
    case unequal =>
      have hne := h hl (.inr rfl)
      rw [transformBoolComp, if_neg (hne .no), if_neg (hne .mod), if_neg (hne .yes)]
    all_goals rfl
  · rfl

theorem transformNotSymbol_of_ne {s : S} (h : ∀ t, s ≠ d.const t) :
    transformNotSymbol d s = .not (.symbol s) := by
  rw [transformNotSymbol, if_neg (h .yes), if_neg (h .mod), if_neg (h .no)]

theorem gives_junct {t : Junction} {l l' r r' : Expr S}
    (hl : Gives (fun n => exprTransformDepth d n l) l')
    (hr : Gives (fun n => exprTransformDepth d n r) r') :
    Gives (fun n => exprTransformDepth d n (.junct t l r)) (.junct t l' r') :=
  Gives.of_succ (hl.bind (Gives.map hr))

/-- An expression that has been transformed stays what it is. -/
theorem gives_of_normal {e : Expr S} (h : e.Normal d) : Gives (fun n => exprTransformDepth d n e) e := by
  induction e with
  | symbol s => exact Gives.of_succ Gives.pure
  | comp rel l r =>
    refine Gives.of_succ (Gives.congr Gives.pure fun n => ?_)
    exact congrArg some (transformComp_of_normal h)
  | junct t l r ihl ihr => exact gives_junct (ihl h.1) (ihr h.2)
  | not e ih =>
    cases e
    case symbol s =>
      refine Gives.of_succ ((ih trivial).bind (Gives.congr Gives.pure fun n => ?_))
      exact congrArg some (transformNotSymbol_of_ne h)
    all_goals exact h.elim

theorem gives_transformNot {e e' : Expr S} (he : e'.Normal d)
    (hgives : Gives (fun n => exprTransformDepth d n e) e') :
    Gives (fun n => exprTransformDepth d n (.not e)) (transformNot d e') := by
  induction e' generalizing e with
  | symbol s => exact Gives.of_succ (hgives.bind Gives.pure)
  | not a =>
    cases a
    case symbol s => exact Gives.of_succ (hgives.bind (gives_of_normal trivial))
    all_goals exact he.elim
  | comp rel l r => exact Gives.of_succ (hgives.bind Gives.pure)
  | junct t a b iha ihb =>
    refine Gives.of_succ (hgives.bind ?_)
    exact gives_junct (iha he.1 (gives_of_normal he.1)) (ihb he.2 (gives_of_normal he.2))

theorem gives_exprTransform (d : Symbols S) (e : Expr S) :
    Gives (fun n => exprTransformDepth d n e) (exprTransform d e) := by
  induction e with
  | symbol s => exact Gives.of_succ Gives.pure
  | comp rel l r => exact Gives.of_succ Gives.pure
  | junct t l r ihl ihr => exact gives_junct ihl ihr
  | not e ih => exact gives_transformNot (normal_exprTransform e) ih

/-! ### Numbers -/

section numbers
variable {d' : Symbols S}

theorem numberFree_transformComp {rel : Rel} {l r : S} (h : (Expr.comp rel l r).NumberFree d') :
    (transformComp d rel l r).NumberFree d' := by
  rw [transformComp]
  split_ifs
  · cases rel <;> rw [transformBoolComp] <;> try split_ifs
    all_goals trivial
  · exact h

theorem numberFree_transformNot {e : Expr S} (h : e.NumberFree d') :
    (transformNot d e).NumberFree d' := by
  induction e with
  | symbol s =>
    rw [transformNot, transformNotSymbol]
    split_ifs <;> trivial
  | not a => exact h
  | comp rel l r => exact h
  | junct t a b iha ihb => exact ⟨iha h.1, ihb h.2⟩

theorem numberFree_exprTransform {e : Expr S} (h : e.NumberFree d') :
    (exprTransform d e).NumberFree d' := by
  induction e with
  | symbol s => trivial
  | comp rel l r => exact numberFree_transformComp h
  | junct t l r ihl ihr => exact ⟨ihl h.1, ihr h.2⟩
  | not e ih => exact numberFree_transformNot (ih h)

end numbers

/-! ### The value -/

theorem Rel.holds_negate (rel : Rel) (o : Ordering) : rel.negate.holds o = !rel.holds o := by
  cases rel <;> cases o <;> rfl

theorem Junction.not_op (t : Junction) (a b : Tristate) : (t.op a b).not = t.dual.op a.not b.not := by
  cases t
  exacts [Tristate.not_and a b, Tristate.not_or a b]

section value
variable (v : Valuation d)

theorem calc_transformBoolComp {l : S} (hl : d.type l = some .boolean) (r : S) (rel : Rel) :
    exprCalcValue v (transformBoolComp d l r rel) = exprCalcValue v (.comp rel l r) := by
  have hmod := v.tri_ne_mod (v.type_of_eq_some hl)
  have hsym : v.tri l = .ofBool (v.tri l = .yes) ∧ v.tri l = .ofBool (v.tri l ≠ .no) ∧
      (v.tri l).not = .ofBool (v.tri l = .no) ∧ (v.tri l).not = .ofBool (v.tri l ≠ .yes) := by
    cases h : v.tri l
    · exact ⟨rfl, rfl, rfl, rfl⟩
    · exact absurd h hmod
    · exact ⟨rfl, rfl, rfl, rfl⟩
  cases rel
  case equal =>
    rw [transformBoolComp]
    split_ifs with hn hm hy
    · rw [hn, v.calc_equal_const (.inl hl)]
      exact hsym.2.2.1
    · rw [hm, v.calc_equal_const (.inl hl), v.calc_const, decide_eq_false hmod]
      rfl
    · rw [hy, v.calc_equal_const (.inl hl)]
      exact hsym.1
    · rfl
  case unequal =>
    rw [transformBoolComp]
    split_ifs with hn hm hy
    · rw [hn, v.calc_unequal_const (.inl hl)]
      exact hsym.2.1
    · rw [hm, v.calc_unequal_const (.inl hl), v.calc_const, decide_eq_true hmod]
      rfl
    · rw [hy, v.calc_unequal_const (.inl hl)]
      exact hsym.2.2.2
    · rfl
  all_goals rfl

theorem calc_transformComp (rel : Rel) (l r : S) :
    exprCalcValue v (transformComp d rel l r) = exprCalcValue v (.comp rel l r) := by
  rw [transformComp]
  split_ifs with hl
  · exact calc_transformBoolComp v hl r rel
  · rfl

theorem calc_transformNot (e : Expr S) :
    exprCalcValue v (transformNot d e) = (exprCalcValue v e).not := by
  induction e with
  | symbol s =>
    rw [transformNot, transformNotSymbol]
    split_ifs with hy hm hn
    · rw [hy, v.calc_const, v.calc_const]
      rfl
    · rw [hm, v.calc_const]
      rfl
    · rw [hn, v.calc_const, v.calc_const]
      rfl
    · rfl
  | not a => exact (Tristate.not_not _).symm
  | comp rel l r =>
    rw [transformNot, exprCalcValue, exprCalcValue, Rel.holds_negate, Tristate.not_ofBool]
  | junct t a b iha ihb =>
    rw [transformNot, exprCalcValue, exprCalcValue, iha, ihb, Junction.not_op]

theorem calc_exprTransform (e : Expr S) :
    exprCalcValue v (exprTransform d e) = exprCalcValue v e := by
  induction e with
  | symbol s => rfl
  | comp rel l r => exact calc_transformComp v rel l r
  | junct t l r ihl ihr => rw [exprTransform, exprCalcValue, exprCalcValue, ihl, ihr]
  | not e ih => rw [exprTransform, calc_transformNot, ih, exprCalcValue]

end value

/-- `expr_transform` ends, with an expression of the same value in which negations stand at symbols
only and no `bool` is compared with a constant. -/
theorem exprTransformDepth_gives (d : Symbols S) (e : Expr S) :
    ∃ e', Gives (fun n => exprTransformDepth d n e) e' ∧ e'.Normal d ∧
      ∀ v : Valuation d, exprCalcValue v e' = exprCalcValue v e :=
  ⟨_, gives_exprTransform d e, normal_exprTransform e, fun v => calc_exprTransform v e⟩

/-! ### `rewrite_m` -/

variable (d)

/-- Rewrites `m` to `m && MODULES`. -/
def rewriteM (modules : S) : Expr S → Expr S
  | .not e => .not (rewriteM modules e)
  | .junct t l r => .junct t (rewriteM modules l) (rewriteM modules r)
  | .symbol s =>
    if s = d.const .mod then .junct .and (.symbol s) (.symbol modules) else .symbol s
  | .comp rel l r => .comp rel l r

/-! ### `expr_trans_bool` -/

/-- `FOO!=n -> FOO`, for a condition of which only `n` matters. -/
def exprTransBool : Expr S → Expr S
  | .not e => .not (exprTransBool e)
  | .junct t l r => .junct t (exprTransBool l) (exprTransBool r)
  | .comp .unequal l r =>
    if d.type l = some .tristate ∧ r = d.const .no then .symbol l else .comp .unequal l r
  | e => e

/-! ### `expr_trans_compare` -/

/-- The expression compared with the constant `t`, for `E_EQUAL` and `E_UNEQUAL`. -/
def exprTransCompare (t : Tristate) : Bool → Expr S → Expr S
  | unequal, .junct j l r =>
    let e1 := exprTransCompare t false l
    let e2 := exprTransCompare t false r
    let e := if t = .yes then .junct j e1 e2 else if t = .no then .junct j.dual e1 e2 else .junct j l r
    if unequal then .not e else e
  | unequal, .not e => exprTransCompare t (!unequal) e
  | false, .comp rel l r =>
    match t with
    | .yes => .comp rel l r
    | .mod => .symbol (d.const .no)
    | .no => .not (.comp rel l r)
  | true, .comp rel l r =>
    match t with
    | .yes => .not (.comp rel l r)
    | .mod => .symbol (d.const .yes)
    | .no => .comp rel l r
  | unequal, .symbol s => .comp (if unequal then .unequal else .equal) s (d.const t)

/-! ### What a condition is about -/

def exprContainsSymbol (sym : S) : Expr S → Bool
  | .junct _ l r => exprContainsSymbol sym l || exprContainsSymbol sym r
  | .symbol s => s = sym
  | .comp _ l r => l = sym || r = sym
  | .not e => exprContainsSymbol sym e

def exprDependsSymbol (sym : S) : Expr S → Bool
  | .junct .and l r => exprDependsSymbol sym l || exprDependsSymbol sym r
  | .symbol s => s = sym
  | .comp .equal l r => l = sym && (r = d.const .yes || r = d.const .mod)
  | .comp .unequal l r => l = sym && r = d.const .no
  | _ => false

namespace Expr

/-- The symbols that stand alone are `bool` or `tristate`, or they are `y`, `m` or `n`. -/
def TriSymbols (d : Symbols S) : Expr S → Prop
  | symbol s => d.IsTri s ∨ ∃ t, s = d.const t
  | comp .. => True
  | not e => TriSymbols d e
  | junct _ l r => TriSymbols d l ∧ TriSymbols d r

/-- The expression with `n` for `m`. -/
def withoutMod (d : Symbols S) : Expr S → Expr S
  | symbol s => if s = d.const .mod then symbol (d.const .no) else symbol s
  | comp rel l r => comp rel l r
  | not e => not (withoutMod d e)
  | junct t l r => junct t (withoutMod d l) (withoutMod d r)

end Expr

variable {d}

/-- No negated part has the value `m`. -/
def Expr.Crisp (v : Valuation d) : Expr S → Prop
  | symbol _ | comp .. => True
  | not e => exprCalcValue v e ≠ .mod ∧ Crisp v e
  | junct _ l r => Crisp v l ∧ Crisp v r

theorem numberFree_rewriteM {d' : Symbols S} {modules : S} {e : Expr S} (h : e.NumberFree d') :
    (rewriteM d modules e).NumberFree d' := by
  induction e with
  | symbol s =>
    rw [rewriteM]
    split_ifs
    exacts [⟨trivial, trivial⟩, trivial]
  | comp rel l r => exact h
  | not e ih => exact ih h
  | junct t l r ihl ihr => exact ⟨ihl h.1, ihr h.2⟩

theorem rewriteM_of_grows {d' : Symbols S} (h : d.Grows d') (modules : S) (e : Expr S) :
    rewriteM d' modules e = rewriteM d modules e := by
  induction e with
  | symbol s => rw [rewriteM, rewriteM, h.const]
  | not e ih => rw [rewriteM, rewriteM, ih]
  | junct t l r ihl ihr => rw [rewriteM, rewriteM, ihl, ihr]
  | comp rel l r => rfl

variable (v : Valuation d)

/-- What `rewrite_m` makes of a condition: without modules `m` is `n`, and nothing changes with
them. -/
theorem calc_rewriteM (modules : S) (e : Expr S) :
    exprCalcValue v (rewriteM d modules e) =
      exprCalcValue v (if v.tri modules = .no then e.withoutMod d else e) := by
  induction e with
  | symbol s =>
    rw [rewriteM, Expr.withoutMod]
    by_cases hs : s = d.const .mod
    · rw [if_pos hs, if_pos hs, hs]
      show Tristate.and (v.tri (d.const .mod)) (v.tri modules) = _
      rw [v.tri_const]
      split_ifs with hno
      · rw [hno, v.calc_const]
        rfl
      · rw [v.calc_const]
        cases h : v.tri modules <;> first | rfl | exact absurd h hno
    · rw [if_neg hs, if_neg hs, ite_self]
  | comp rel l r => rw [Expr.withoutMod, ite_self, rewriteM]
  | not e ih =>
    rw [rewriteM, Expr.withoutMod, exprCalcValue, ih]
    split_ifs <;> rfl
  | junct t l r ihl ihr =>
    rw [rewriteM, Expr.withoutMod, exprCalcValue, ihl, ihr]
    split_ifs <;> rfl

/-! ### The difference between `m` and `y` -/

theorem op_le_op {t : Junction} {a a' b b' : Tristate} (ha : a ≤ a') (hb : b ≤ b') :
    t.op a b ≤ t.op a' b' :=
  (t.op_monotone a hb).trans (by rw [t.op_comm a, t.op_comm a']; exact t.op_monotone b' ha)

theorem op_eq_no_iff {t : Junction} {a b : Tristate} :
    t.op a b = .no ↔ match t with
      | .and => a = .no ∨ b = .no
      | .or => a = .no ∧ b = .no := by
  cases t <;> cases a <;> cases b <;> decide

namespace Expr

/-- Negations stand at symbols only. -/
def Nnf : Expr S → Prop
  | not (symbol _) => True
  | not _ => False
  | junct _ l r => Nnf l ∧ Nnf r
  | symbol _ | comp .. => True

omit [DecidableEq S] in
theorem Normal.nnf {e : Expr S} (h : e.Normal d) : e.Nnf := by
  induction e with
  | junct t l r ihl ihr => exact ⟨ihl h.1, ihr h.2⟩
  | not e =>
    cases e
    case symbol => trivial
    all_goals exact h.elim
  | _ => trivial

end Expr

/-- Where negations stand at symbols only, `expr_trans_bool` makes a condition that is `n` where the
condition was, and never larger. -/
theorem exprTransBool_value {e : Expr S} (h : e.Nnf) :
    exprCalcValue v (exprTransBool d e) ≤ exprCalcValue v e ∧
      (exprCalcValue v (exprTransBool d e) = .no ↔ exprCalcValue v e = .no) := by
  induction e with
  | symbol s => exact ⟨le_refl _, Iff.rfl⟩
  | not e ih =>
    cases e
    case symbol => exact ⟨le_refl _, Iff.rfl⟩
    all_goals exact h.elim
  | junct t l r ihl ihr =>
    obtain ⟨hl, hl'⟩ := ihl h.1
    obtain ⟨hr, hr'⟩ := ihr h.2
    rw [exprTransBool, exprCalcValue, exprCalcValue]
    refine ⟨op_le_op hl hr, ?_⟩
    rw [op_eq_no_iff, op_eq_no_iff, hl', hr']
  | comp rel l r =>
    cases rel
    case unequal =>
      rw [exprTransBool]
      split_ifs with hcond
      · obtain ⟨htri, rfl⟩ := hcond
        rw [v.calc_unequal_const (.inr htri)]
        show v.tri l ≤ _ ∧ (v.tri l = .no ↔ _)
        cases v.tri l <;> decide
      · exact ⟨le_refl _, Iff.rfl⟩
    all_goals exact ⟨le_refl _, Iff.rfl⟩

/-! ### Comparing an expression -/

omit [DecidableEq S] in
theorem calc_symbol_compare {s : S} (hs : d.IsTri s ∨ ∃ t, s = d.const t) (t : Tristate) :
    exprCalcValue v (.comp .equal s (d.const t)) = .ofBool (v.tri s = t) ∧
      exprCalcValue v (.comp .unequal s (d.const t)) = .ofBool (v.tri s ≠ t) := by
  rcases hs with hs | ⟨t', rfl⟩
  · exact ⟨v.calc_equal_const hs, v.calc_unequal_const hs⟩
  · have hcompare : v.compare (d.const t') (d.const t) = .eq ↔ t' = t := by
      rw [Valuation.compare, v.type_const, v.type_const, v.str_const, v.str_const,
        compareStrings_of_string (by cases t <;> rfl), strcmp_eq_iff, triText_injective.eq_iff]
    simp only [exprCalcValue, Rel.holds, v.tri_const]
    refine ⟨congrArg _ ?_, congrArg _ ?_⟩
    · rw [Bool.eq_iff_iff, beq_iff_eq, hcompare, decide_eq_true_iff]
    · rw [Bool.eq_iff_iff, bne_iff_ne, Ne, hcompare, decide_eq_true_iff]

theorem op_ofBool_yes (j : Junction) (a b : Tristate) :
    j.op (.ofBool (a = .yes)) (.ofBool (b = .yes)) = .ofBool (j.op a b = .yes) := by
  cases j <;> cases a <;> cases b <;> rfl

theorem op_ofBool_no (j : Junction) (a b : Tristate) :
    j.dual.op (.ofBool (a = .no)) (.ofBool (b = .no)) = .ofBool (j.op a b = .no) := by
  cases j <;> cases a <;> cases b <;> rfl

omit [DecidableEq S] in
/-- `expr_trans_compare` compares the value of the expression with `y` or `n`, where no negated part
is `m`: the comparison of a negation is the other comparison of what is negated. -/
theorem calc_exprTransCompare {t : Tristate} (ht : t ≠ .mod) {e : Expr S} (htri : e.TriSymbols d)
    (hcrisp : e.Crisp v) :
    exprCalcValue v (exprTransCompare d t false e) = .ofBool (exprCalcValue v e = t) ∧
      exprCalcValue v (exprTransCompare d t true e) = .ofBool (exprCalcValue v e ≠ t) := by
  induction e with
  | symbol s => exact calc_symbol_compare v htri t
  | comp rel l r =>
    have hcomp : exprCalcValue v (.comp rel l r) = .ofBool (rel.holds (v.compare l r)) := rfl
    have hnot : exprCalcValue v (.not (.comp rel l r)) = .ofBool (!rel.holds (v.compare l r)) :=
      Tristate.not_ofBool _
    rcases t with _ | _ | _
    · rw [show exprTransCompare d .no false (.comp rel l r) = .not (.comp rel l r) from rfl,
        show exprTransCompare d .no true (.comp rel l r) = .comp rel l r from rfl, hnot, hcomp]
      cases rel.holds (v.compare l r) <;> exact ⟨rfl, rfl⟩
    · exact absurd rfl ht
    · rw [show exprTransCompare d .yes false (.comp rel l r) = .comp rel l r from rfl,
        show exprTransCompare d .yes true (.comp rel l r) = .not (.comp rel l r) from rfl, hnot, hcomp]
      cases rel.holds (v.compare l r) <;> exact ⟨rfl, rfl⟩
  | not e ih =>
    obtain ⟨hmod, hcrisp⟩ := hcrisp
    obtain ⟨heq, hne⟩ := ih htri hcrisp
    rw [exprTransCompare, exprTransCompare, Bool.not_false, Bool.not_true, heq, hne, exprCalcValue]
    cases t <;> cases h : exprCalcValue v e <;>
      first | exact ⟨rfl, rfl⟩ | exact absurd rfl ht | exact absurd h hmod
  | junct j l r ihl ihr =>
    obtain ⟨hl, -⟩ := ihl htri.1 hcrisp.1
    obtain ⟨hr, -⟩ := ihr htri.2 hcrisp.2
    have heq : exprCalcValue v (exprTransCompare d t false (.junct j l r)) =
        .ofBool (exprCalcValue v (.junct j l r) = t) := by
      rw [exprTransCompare, exprCalcValue]
      rcases t with _ | _ | _
      · show j.dual.op _ _ = _
        rw [hl, hr, op_ofBool_no]
      · exact absurd rfl ht
      · show j.op _ _ = _
        rw [hl, hr, op_ofBool_yes]
    refine ⟨heq, ?_⟩
    show (exprCalcValue v (exprTransCompare d t false (.junct j l r))).not = _
    rw [heq, Tristate.not_ofBool]
    congr 1
    exact decide_not.symm

omit [DecidableEq S] in
/-- The comparison with `n` when a negated part may be `m`: it still holds only of what is not `n`,
and fails only of what is not `y`. -/
theorem exprTransCompare_no {e : Expr S} (htri : e.TriSymbols d) :
    (exprCalcValue v (exprTransCompare d .no true e) = .yes ∧ exprCalcValue v e ≠ .no ∨
      exprCalcValue v (exprTransCompare d .no true e) = .no ∧ exprCalcValue v e ≠ .yes) ∧
    exprCalcValue v (exprTransCompare d .no false e) =
      (exprCalcValue v (exprTransCompare d .no true e)).not := by
  induction e with
  | symbol s =>
    obtain ⟨heq, hne⟩ := calc_symbol_compare v htri .no
    rw [show exprTransCompare d .no true (.symbol s) = .comp .unequal s (d.const .no) from rfl,
      show exprTransCompare d .no false (.symbol s) = .comp .equal s (d.const .no) from rfl, heq, hne]
    show (_ ∧ v.tri s ≠ .no ∨ _ ∧ v.tri s ≠ .yes) ∧ _
    cases v.tri s <;> decide
  | comp rel l r =>
    rw [show exprTransCompare d .no true (.comp rel l r) = .comp rel l r from rfl,
      show exprTransCompare d .no false (.comp rel l r) = .not (.comp rel l r) from rfl]
    refine ⟨?_, rfl⟩
    rw [exprCalcValue]
    cases rel.holds (v.compare l r) <;> decide
  | not e ih =>
    obtain ⟨hval, hnot⟩ := ih htri
    rw [show exprTransCompare d .no true (.not e) = exprTransCompare d .no false e from rfl,
      show exprTransCompare d .no false (.not e) = exprTransCompare d .no true e from rfl, hnot,
      Tristate.not_not]
    refine ⟨?_, rfl⟩
    rw [exprCalcValue]
    rcases hval with ⟨hc, he⟩ | ⟨hc, he⟩ <;> rw [hc] <;> revert he <;>
      cases exprCalcValue v e <;> decide
  | junct j l r ihl ihr =>
    obtain ⟨hl, hnl⟩ := ihl htri.1
    obtain ⟨hr, hnr⟩ := ihr htri.2
    have htrue : exprCalcValue v (exprTransCompare d .no true (.junct j l r)) =
        j.op (exprCalcValue v (exprTransCompare d .no true l))
          (exprCalcValue v (exprTransCompare d .no true r)) := by
      show (j.dual.op (exprCalcValue v (exprTransCompare d .no false l))
        (exprCalcValue v (exprTransCompare d .no false r))).not = _
      rw [hnl, hnr, ← Junction.not_op, Tristate.not_not]
    refine ⟨?_, ?_⟩
    · rw [htrue, exprCalcValue]
      rcases hl with ⟨hcl, hl⟩ | ⟨hcl, hl⟩ <;> rcases hr with ⟨hcr, hr⟩ | ⟨hcr, hr⟩ <;>
        rw [hcl, hcr] <;> revert hl hr <;>
        cases j <;> cases exprCalcValue v l <;> cases exprCalcValue v r <;> decide
    · exact (Tristate.not_not _).symm

omit [DecidableEq S] in
theorem numberFree_exprTransCompare {unequal : Bool} {e : Expr S} (h : e.NumberFree d) :
    (exprTransCompare d .no unequal e).NumberFree d := by
  induction e generalizing unequal with
  | symbol s => cases unequal <;> exact Expr.numberFree_comp_const _ s .no
  | comp rel l r => cases unequal <;> exact h
  | not e ih => exact ih h
  | junct j l r ihl ihr => cases unequal <;> exact ⟨ihl h.1, ihr h.2⟩

/-! ### Conditions that depend on a symbol -/

theorem of_ofBool_ne_no {b : Bool} (h : Tristate.ofBool b ≠ .no) : b = true := by
  cases b
  exacts [absurd rfl h, rfl]

/-- A condition that `expr_depends_symbol` accepts is `n` whenever the symbol is. -/
theorem tri_ne_no_of_exprDependsSymbol {sym : S} (hs : d.IsTri sym) {e : Expr S}
    (h : exprDependsSymbol d sym e = true) (hval : exprCalcValue v e ≠ .no) : v.tri sym ≠ .no := by
  induction e with
  | symbol s =>
    rw [exprDependsSymbol, decide_eq_true_iff] at h
    subst h
    exact hval
  | not e => cases h
  | junct t l r ihl ihr =>
    cases t
    · rw [exprCalcValue, Ne, op_eq_no_iff, not_or] at hval
      rw [exprDependsSymbol, Bool.or_eq_true] at h
      exact h.elim (fun h => ihl h hval.1) fun h => ihr h hval.2
    · cases h
  | comp rel l r =>
    cases rel
    case equal =>
      simp only [exprDependsSymbol, Bool.and_eq_true, Bool.or_eq_true, decide_eq_true_iff] at h
      obtain ⟨rfl, rfl | rfl⟩ := h
      · rw [v.calc_equal_const hs] at hval
        rw [of_decide_eq_true (of_ofBool_ne_no hval)]
        exact Tristate.noConfusion
      · rw [v.calc_equal_const hs] at hval
        rw [of_decide_eq_true (of_ofBool_ne_no hval)]
        exact Tristate.noConfusion
    case unequal =>
      simp only [exprDependsSymbol, Bool.and_eq_true, decide_eq_true_iff] at h
      obtain ⟨rfl, rfl⟩ := h
      rw [v.calc_unequal_const hs] at hval
      exact of_decide_eq_true (of_ofBool_ne_no hval)
    all_goals cases h

end Dir842.Kconfig
