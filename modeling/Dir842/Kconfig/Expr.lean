import Mathlib.Order.Lattice
import Mathlib.Order.BoundedOrder.Basic
import Dir842.Kconfig.Symbol
import Dir842.Lib.Factor

/-!
# Dependency expressions (`expr.c`)

An expression is built of symbols and comparisons of symbols; its value is a tristate. `Valuation` has
what `sym_calc_value` leaves in the symbols, `exprCalcValue` is the value of an expression there.

A level of an expression is what is joined by `&&` alone, or by `||` alone, whatever its brackets:
the value of a level is that of its operands put together.
-/

namespace Dir842.Kconfig
open Factor

/-! ### Tristates -/

namespace Tristate

def toNat : Tristate → ℕ
  | no => 0
  | mod => 1
  | yes => 2

theorem toNat_injective : Function.Injective toNat := by
  intro a b h
  cases a <;> cases b <;> first | rfl | cases h

instance : LinearOrder Tristate := LinearOrder.lift' toNat toNat_injective

/-- `EXPR_AND` -/
def and (a b : Tristate) : Tristate := if a < b then a else b

/-- `EXPR_OR` -/
def or (a b : Tristate) : Tristate := if b < a then a else b

/-- `EXPR_NOT` -/
def not : Tristate → Tristate
  | no => yes
  | mod => mod
  | yes => no

def ofBool (b : Bool) : Tristate := if b then yes else no

theorem le_yes (a : Tristate) : a ≤ yes := by
  cases a <;> decide

theorem no_le (a : Tristate) : no ≤ a := by
  cases a <;> decide

@[simp] theorem not_not (a : Tristate) : a.not.not = a := by cases a <;> rfl

theorem not_and (a b : Tristate) : (a.and b).not = a.not.or b.not := by
  cases a <;> cases b <;> rfl

theorem not_or (a b : Tristate) : (a.or b).not = a.not.and b.not := by
  cases a <;> cases b <;> rfl

theorem not_ofBool (b : Bool) : (ofBool b).not = ofBool !b := by cases b <;> rfl

end Tristate

/-- `E_AND` or `E_OR` -/
inductive Junction
  | and | or
deriving DecidableEq

namespace Junction

def op : Junction → Tristate → Tristate → Tristate
  | and => Tristate.and
  | or => Tristate.or

def unit : Junction → Tristate
  | and => .yes
  | or => .no

variable (t : Junction)

instance : Std.Commutative t.op where
  comm a b := by cases t <;> cases a <;> cases b <;> rfl

instance : Std.Associative t.op where
  assoc a b c := by cases t <;> cases a <;> cases b <;> cases c <;> rfl

instance : Std.LawfulIdentity t.op t.unit where
  left_id a := by cases t <;> cases a <;> rfl
  right_id a := by cases t <;> cases a <;> rfl

theorem op_monotone (c : Tristate) : Monotone (t.op c) := by
  intro a b h
  revert h
  cases t <;> cases c <;> cases a <;> cases b <;> decide

theorem op_self (a : Tristate) : t.op a a = a := by cases t <;> cases a <;> rfl

end Junction

/-! ### Numbers of comparisons -/

def isSpace (c : Char) : Bool := " \t\n\x0b\x0c\r".toList.contains c

/-- `strtoll` of a text that it reads to its end: the sign and the digits' value. -/
def strtollWhole (base : ℕ) (str : Text) : Option (Bool × ℕ) :=
  let str := str.dropWhile isSpace
  let (neg, str) := match str with
    | '-' :: str => (true, str)
    | '+' :: str => (false, str)
    | str => (false, str)
  let (base, str) := match base, str with
    | 0, '0' :: 'x' :: c :: cs | 16, '0' :: 'x' :: c :: cs
    | 0, '0' :: 'X' :: c :: cs | 16, '0' :: 'X' :: c :: cs =>
      if isXDigit c then (16, c :: cs) else (8, str)
    | 0, '0' :: _ => (8, str)
    | 0, _ => (10, str)
    | base, _ => (base, str)
  if str ≠ [] ∧ str.all (fun c => isXDigit c && xDigitVal c < base) then
    some (neg, str.foldl (fun n c => base * n + xDigitVal c) 0)
  else none

/-- `enum string_value_kind` with the `union string_value` -/
inductive StringValue
  | string
  | signed (s : Int)
  | unsigned (u : ℕ)
deriving DecidableEq

/-- A number of `long long`; without one, `errno` is set. -/
def toSigned (r : Bool × ℕ) : Option Int :=
  let v : Int := if r.1 then -(r.2 : Int) else r.2
  if -9223372036854775808 ≤ v ∧ v ≤ 9223372036854775807 then some v else none

/-- `strtoull` takes a sign too, and negates what it has read. -/
def toUnsigned (r : Bool × ℕ) : Option ℕ :=
  if r.2 < 18446744073709551616 then
    some (if r.1 then (18446744073709551616 - r.2) % 18446744073709551616 else r.2)
  else none

def exprParseString (str : Text) : Option SymType → StringValue
  | some .boolean | some .tristate =>
    .signed (if str = "n".toList then 0 else if str = "m".toList then 1
      else if str = "y".toList then 2 else -1)
  | some .int => ((strtollWhole 10 str).bind toSigned).elim .string .signed
  | some .hex => ((strtollWhole 16 str).bind toUnsigned).elim .string .unsigned
  | some .string | none => ((strtollWhole 0 str).bind toSigned).elim .string .signed

def strcmp : Text → Text → Ordering
  | [], [] => .eq
  | [], _ :: _ => .lt
  | _ :: _, [] => .gt
  | a :: as, b :: bs => (compare a.toNat b.toNat).then (strcmp as bs)

/-- `long long` read as `unsigned long long` -/
def StringValue.u : StringValue → ℕ
  | .string => 0
  | .signed s => (s % 18446744073709551616).toNat
  | .unsigned u => u

/-- How `expr_calc_value` compares two symbols. -/
def compareStrings (str1 : Text) (type1 : Option SymType) (str2 : Text) (type2 : Option SymType) :
    Ordering :=
  if type1 = some .string ∧ type2 = some .string then strcmp str1 str2
  else
    match exprParseString str1 type1, exprParseString str2 type2 with
    | .string, _ | _, .string => strcmp str1 str2
    | .signed l, .signed r => compare l r
    | l, r => compare l.u r.u

theorem strcmp_eq_iff {a b : Text} : strcmp a b = .eq ↔ a = b := by
  induction a generalizing b with
  | nil => cases b <;> simp [strcmp]
  | cons x as ih =>
    rcases b with _ | ⟨y, bs⟩
    · simp [strcmp]
    · have hchar : x.toNat = y.toNat ↔ x = y :=
        ⟨fun h => Char.ext (UInt32.toNat_inj.mp h), fun h => h ▸ rfl⟩
      rw [strcmp, Ordering.then_eq_eq, Nat.compare_eq_eq, hchar, ih, List.cons.injEq]

/-! ### Symbols -/

/-- What a Kconfig file declares of its symbols; `none` is `S_UNKNOWN`. Two constants of one name
are one symbol. -/
structure Symbols (S : Type*) where
  type : S → Option SymType
  name : S → Text
  isConst : S → Bool
  /-- `&symbol_no`, `&symbol_mod` and `&symbol_yes` -/
  const : Tristate → S
  name_const : ∀ t, name (const t) = triText t
  isConst_const : ∀ t, isConst (const t) = true
  type_of_isConst : ∀ {s}, isConst s = true → type s = none
  name_inj : ∀ {s s'}, isConst s = true → isConst s' = true → name s = name s' → s = s'

variable {S : Type*}

theorem triText_injective : Function.Injective triText := by
  intro a b h
  cases a <;> cases b <;> first | rfl | cases h

namespace Symbols
variable (d : Symbols S)

/-- The symbols of type `bool` and `tristate`. -/
def IsTri (s : S) : Prop := d.type s = some .boolean ∨ d.type s = some .tristate

instance (s : S) : Decidable (d.IsTri s) := inferInstanceAs (Decidable (_ ∨ _))

theorem type_const (t : Tristate) : d.type (d.const t) = none := d.type_of_isConst (d.isConst_const t)

theorem const_injective : Function.Injective d.const := fun a b h =>
  triText_injective (by rw [← d.name_const, ← d.name_const, h])

/-- `d'` has all types of `d`, and maybe more. -/
structure Grows (d d' : Symbols S) : Prop where
  type : ∀ {s t}, d.type s = some t → d'.type s = some t
  name : d'.name = d.name
  isConst : d'.isConst = d.isConst
  const : d'.const = d.const

theorem Grows.refl : d.Grows d := ⟨id, rfl, rfl, rfl⟩

variable {d} in
theorem Grows.trans {d' d'' : Symbols S} (h : d.Grows d') (h' : d'.Grows d'') : d.Grows d'' :=
  ⟨fun ht => h'.type (h.type ht), h'.name.trans h.name, h'.isConst.trans h.isConst,
    h'.const.trans h.const⟩

end Symbols

/-- The values of all symbols: `curr.tri`, and what `sym_get_string_value` gives. A symbol that `d` has
no type of may have been given one by then. -/
structure Valuation (d : Symbols S) where
  type : S → Option SymType
  tri : S → Tristate
  str : S → Text
  type_of_eq_some : ∀ {s t}, d.type s = some t → type s = some t
  type_of_isConst : ∀ {s}, d.isConst s = true → type s = none
  tri_const : ∀ t, tri (d.const t) = t
  str_of_unknown : ∀ {s}, type s = none → str s = d.name s
  str_of_isTri : ∀ {s}, type s = some .boolean ∨ type s = some .tristate → str s = triText (tri s)
  tri_ne_mod : ∀ {s}, type s = some .boolean → tri s ≠ .mod

/-! ### Symbols by their names -/

/-- A symbol as `sym_lookup` finds it: constants and other symbols apart, by their names. -/
structure SymRef where
  isConst : Bool
  name : Text
deriving DecidableEq

namespace SymValue

def tri : SymValue → Tristate
  | boolean b => .ofBool b
  | tristate t => t
  | _ => .no

theorem symGetStringValue_of_type {w : SymValue} (h : w.type = .boolean ∨ w.type = .tristate) :
    symGetStringValue w = triText w.tri := by
  cases w with
  | boolean b => cases b <;> rfl
  | tristate t => rfl
  | _ => rcases h with h | h <;> cases h

theorem tri_ne_mod_of_type {w : SymValue} (h : w.type = .boolean) : w.tri ≠ .mod := by
  cases w with
  | boolean b => cases b <;> simp [tri, Tristate.ofBool]
  | _ => cases h

end SymValue

/-- The symbols with their values, by name; the others are unknown. -/
def Symbols.ofValues (vals : Text → Option SymValue) : Symbols SymRef where
  type s := if s.isConst then none else (vals s.name).map SymValue.type
  name s := s.name
  isConst s := s.isConst
  const t := ⟨true, triText t⟩
  name_const _ := rfl
  isConst_const _ := rfl
  type_of_isConst h := if_pos h
  name_inj {s s'} h h' hname := by
    cases s
    cases s'
    cases h
    cases h'
    cases hname
    rfl

def Valuation.ofValues (vals : Text → Option SymValue) : Valuation (Symbols.ofValues vals) where
  type := (Symbols.ofValues vals).type
  type_of_eq_some h := h
  type_of_isConst := (Symbols.ofValues vals).type_of_isConst
  tri s :=
    if s.isConst then
      if s.name = "y".toList then .yes else if s.name = "m".toList then .mod else .no
    else (vals s.name).elim .no SymValue.tri
  str s := if s.isConst then s.name else (vals s.name).elim s.name symGetStringValue
  tri_const t := by cases t <;> rfl
  str_of_unknown {s} h := by
    rcases s with ⟨_ | _, name⟩
    · have htype : (vals name).map SymValue.type = none := h
      rw [Option.map_eq_none_iff] at htype
      show (vals name).elim name symGetStringValue = name
      rw [htype, Option.elim_none]
    · rfl
  str_of_isTri {s} h := by
    rcases s with ⟨_ | _, name⟩
    · have htype : (vals name).map SymValue.type = some .boolean ∨
          (vals name).map SymValue.type = some .tristate := h
      show (vals name).elim name symGetStringValue = triText ((vals name).elim .no SymValue.tri)
      rcases hw : vals name with _ | w <;> rw [hw] at htype
      · rcases htype with h | h <;> cases h
      · exact SymValue.symGetStringValue_of_type (htype.imp Option.some.inj Option.some.inj)
    · rcases h with h | h <;> cases h
  tri_ne_mod {s} h := by
    rcases s with ⟨_ | _, name⟩
    · have htype : (vals name).map SymValue.type = some .boolean := h
      show (vals name).elim .no SymValue.tri ≠ .mod
      rcases hw : vals name with _ | w <;> rw [hw] at htype
      · cases htype
      · exact SymValue.tri_ne_mod_of_type (Option.some.inj htype)
    · cases h

/-! ### Expressions -/

inductive Rel
  | equal | unequal | leq | lth | geq | gth
deriving DecidableEq

def Rel.holds : Rel → Ordering → Bool
  | equal, o => o == .eq
  | unequal, o => o != .eq
  | leq, o => o != .gt
  | lth, o => o == .lt
  | geq, o => o != .lt
  | gth, o => o == .gt

inductive Expr (S : Type*)
  | symbol (sym : S)
  | not (e : Expr S)
  | junct (type : Junction) (left right : Expr S)
  | comp (rel : Rel) (left right : S)
deriving DecidableEq

/-- `enum expr_type` -/
inductive ExprType
  | symbol | not
  | junct (type : Junction)
  | comp (rel : Rel)
deriving DecidableEq

def Expr.type : Expr S → ExprType
  | symbol _ => .symbol
  | not _ => .not
  | junct t _ _ => .junct t
  | comp rel _ _ => .comp rel

variable {d : Symbols S}

def Valuation.compare (v : Valuation d) (s1 s2 : S) : Ordering :=
  compareStrings (v.str s1) (v.type s1) (v.str s2) (v.type s2)

def exprCalcValue (v : Valuation d) : Expr S → Tristate
  | .symbol s => v.tri s
  | .not e => (exprCalcValue v e).not
  | .junct t l r => t.op (exprCalcValue v l) (exprCalcValue v r)
  | .comp rel l r => .ofBool (rel.holds (v.compare l r))

/-- Values of symbols with more types are values of the symbols. -/
def Valuation.restrict {d' : Symbols S} (h : d.Grows d') (v : Valuation d') : Valuation d where
  type := v.type
  tri := v.tri
  str := v.str
  type_of_eq_some ht := v.type_of_eq_some (h.type ht)
  type_of_isConst hs := v.type_of_isConst ((congrFun h.isConst _).trans hs)
  tri_const t := (congrArg v.tri (congrFun h.const t).symm).trans (v.tri_const t)
  str_of_unknown hs := (v.str_of_unknown hs).trans (congrFun h.name _)
  str_of_isTri := v.str_of_isTri
  tri_ne_mod := v.tri_ne_mod

theorem exprCalcValue_restrict {d' : Symbols S} (h : d.Grows d') (v : Valuation d') (e : Expr S) :
    exprCalcValue (v.restrict h) e = exprCalcValue v e := by
  induction e with
  | symbol s => rfl
  | not e ih => rw [exprCalcValue, exprCalcValue, ih]
  | junct t l r ihl ihr => rw [exprCalcValue, exprCalcValue, ihl, ihr]
  | comp rel l r => rfl

theorem compareStrings_of_string {str1 str2 : Text} {type1 : Option SymType}
    (h : exprParseString str2 none = .string) :
    compareStrings str1 type1 str2 none = strcmp str1 str2 := by
  rw [compareStrings, if_neg (fun h => by cases h.2), h]
  cases exprParseString str1 type1 <;> rfl

namespace Valuation
variable (v : Valuation d) {s c : S}

theorem type_const (t : Tristate) : v.type (d.const t) = none :=
  v.type_of_isConst (d.isConst_const t)

theorem str_const (t : Tristate) : v.str (d.const t) = triText t :=
  (v.str_of_unknown (v.type_const t)).trans (d.name_const t)

/-- A constant that is no number is compared by its name. -/
theorem compare_eq_iff_of_string (hs : d.IsTri s) (hc : d.isConst c = true)
    (hname : exprParseString (d.name c) none = .string) :
    v.compare s c = .eq ↔ triText (v.tri s) = d.name c := by
  have hconst := v.type_of_isConst hc
  rw [compare, hconst, v.str_of_unknown hconst, compareStrings_of_string hname, strcmp_eq_iff,
    v.str_of_isTri (hs.imp v.type_of_eq_some v.type_of_eq_some)]

theorem compare_const_eq_iff {t : Tristate} (hs : d.IsTri s) :
    v.compare s (d.const t) = .eq ↔ v.tri s = t := by
  have hname : exprParseString (d.name (d.const t)) none = .string := by
    rw [d.name_const]
    cases t <;> rfl
  rw [v.compare_eq_iff_of_string hs (d.isConst_const t) hname, d.name_const,
    triText_injective.eq_iff]

theorem calc_equal_const {t : Tristate} (hs : d.IsTri s) :
    exprCalcValue v (.comp .equal s (d.const t)) = .ofBool (v.tri s = t) := by
  rw [exprCalcValue, Rel.holds]
  congr 1
  rw [Bool.eq_iff_iff, beq_iff_eq, v.compare_const_eq_iff hs, decide_eq_true_iff]

theorem calc_unequal_const {t : Tristate} (hs : d.IsTri s) :
    exprCalcValue v (.comp .unequal s (d.const t)) = .ofBool (v.tri s ≠ t) := by
  rw [exprCalcValue, Rel.holds]
  congr 1
  rw [Bool.eq_iff_iff, bne_iff_ne, Ne, v.compare_const_eq_iff hs, decide_eq_true_iff]

@[simp] theorem calc_const (t : Tristate) : exprCalcValue v (.symbol (d.const t)) = t := v.tri_const t

end Valuation

/-! ### Levels -/

namespace Expr

def height : Expr S → ℕ
  | symbol _ | comp .. => 1
  | not e => height e + 1
  | junct _ l r => max (height l) (height r) + 1

/-- The operands of the level of `&&` or `||` that an expression begins. -/
def leaves (t : Junction) : Expr S → List (Expr S)
  | junct t' l r => if t' = t then leaves t l ++ leaves t r else [junct t' l r]
  | e => [e]

/-- The level with other operands in the places of its own. -/
def putLeaves (t : Junction) : Expr S → List (Expr S) → Expr S
  | junct t' l r, es =>
    if t' = t then
      junct t' (putLeaves t l (es.take (leaves t l).length))
        (putLeaves t r (es.drop (leaves t l).length))
    else es.headD (junct t' l r)
  | e, es => es.headD e

variable {t : Junction}

theorem leaves_junct_self (l r : Expr S) : leaves t (junct t l r) = leaves t l ++ leaves t r :=
  if_pos rfl

theorem leaves_junct_ne {t' : Junction} (h : t' ≠ t) (l r : Expr S) :
    leaves t (junct t' l r) = [junct t' l r] := if_neg h

theorem putLeaves_junct_self (l r : Expr S) (es : List (Expr S)) :
    putLeaves t (junct t l r) es =
      junct t (putLeaves t l (es.take (leaves t l).length))
        (putLeaves t r (es.drop (leaves t l).length)) := if_pos rfl

theorem putLeaves_junct_ne {t' : Junction} (h : t' ≠ t) (l r : Expr S) (es : List (Expr S)) :
    putLeaves t (junct t' l r) es = es.headD (junct t' l r) := if_neg h

theorem height_pos (e : Expr S) : 0 < e.height := by
  cases e <;> simp [height]

theorem height_le_of_mem_leaves {e x : Expr S} (h : x ∈ leaves t e) : x.height ≤ e.height := by
  induction e with
  | junct t' l r ihl ihr =>
    by_cases ht : t' = t
    · subst ht
      rw [leaves_junct_self] at h
      rcases List.mem_append.mp h with h | h
      · exact (ihl h).trans ((le_max_left _ _).trans (Nat.le_succ _))
      · exact (ihr h).trans ((le_max_right _ _).trans (Nat.le_succ _))
    · rw [leaves_junct_ne ht, List.mem_singleton] at h
      rw [h]
  | _ => rw [List.mem_singleton.mp h]

theorem height_lt_of_mem_leaves {l r x : Expr S} (h : x ∈ leaves t (junct t l r)) :
    x.height < (junct t l r).height := by
  rw [leaves_junct_self] at h
  refine Nat.lt_succ_of_le ?_
  rcases List.mem_append.mp h with h | h
  · exact (height_le_of_mem_leaves h).trans (le_max_left _ _)
  · exact (height_le_of_mem_leaves h).trans (le_max_right _ _)

/-- A rule over the parts of a level: what its operands have and joining keeps. -/
theorem putLeaves_rule {P : Expr S → Prop} (hjunct : ∀ {l r}, P l → P r → P (junct t l r)) {e : Expr S}
    {es : List (Expr S)} (hlen : es.length = (leaves t e).length) (hes : ∀ x ∈ es, P x) :
    P (putLeaves t e es) := by
  induction e generalizing es with
  | junct t' l r ihl ihr =>
    by_cases ht : t' = t
    · subst ht
      rw [leaves_junct_self, List.length_append] at hlen
      rw [putLeaves_junct_self]
      refine hjunct (ihl ?_ fun x hx => hes x (List.mem_of_mem_take hx))
        (ihr ?_ fun x hx => hes x (List.mem_of_mem_drop hx))
      · rw [List.length_take, hlen]
        omega
      · rw [List.length_drop, hlen]
        omega
    · rw [leaves_junct_ne ht, List.length_singleton] at hlen
      obtain ⟨x, rfl⟩ := List.length_eq_one_iff.mp hlen
      rw [putLeaves_junct_ne ht]
      exact hes x (List.mem_singleton_self x)
  | _ =>
    obtain ⟨x, rfl⟩ := List.length_eq_one_iff.mp hlen
    exact hes x (List.mem_singleton_self x)

theorem putLeaves_leaves (e : Expr S) : putLeaves t e (leaves t e) = e := by
  induction e with
  | junct t' l r ihl ihr =>
    by_cases ht : t' = t
    · subst ht
      rw [putLeaves_junct_self, leaves_junct_self, List.take_left, List.drop_left, ihl, ihr]
    · rw [putLeaves_junct_ne ht, leaves_junct_ne ht, List.headD_cons]
  | _ => rfl

/-- The value of a level is that of its operands put together. -/
theorem calc_putLeaves (v : Valuation d) {e : Expr S} {es : List (Expr S)}
    (hlen : es.length = (leaves t e).length) :
    exprCalcValue v (putLeaves t e es) = total t.op t.unit (exprCalcValue v) es := by
  have hone : ∀ x : Expr S, exprCalcValue v x = total t.op t.unit (exprCalcValue v) [x] :=
    fun x => (Std.LawfulRightIdentity.right_id (exprCalcValue v x)).symm
  induction e generalizing es with
  | junct t' l r ihl ihr =>
    by_cases ht : t' = t
    · subst ht
      rw [leaves_junct_self, List.length_append] at hlen
      have hl := @ihl (es.take (leaves t' l).length) (by rw [List.length_take, hlen]; omega)
      have hr := @ihr (es.drop (leaves t' l).length) (by rw [List.length_drop, hlen]; omega)
      rw [putLeaves_junct_self, exprCalcValue, hl, hr]
      exact total_append.symm.trans (congrArg _ (List.take_append_drop _ es))
    · rw [leaves_junct_ne ht, List.length_singleton] at hlen
      obtain ⟨x, rfl⟩ := List.length_eq_one_iff.mp hlen
      rw [putLeaves_junct_ne ht]
      exact hone x
  | _ =>
    obtain ⟨x, rfl⟩ := List.length_eq_one_iff.mp hlen
    exact hone x

theorem calc_leaves (v : Valuation d) (e : Expr S) :
    exprCalcValue v e = total t.op t.unit (exprCalcValue v) (leaves t e) := by
  have h := calc_putLeaves v (rfl : (leaves t e).length = (leaves t e).length)
  rwa [putLeaves_leaves] at h

end Expr

end Dir842.Kconfig
