import Dir842.Kconfig.ExprTransform
import Mathlib.Data.List.Find

/-!
# What the values of symbols should be (`symbol.c`)

The value of a symbol is a function of the values of the symbols in the conditions of its menu
entries, of what the user has set, and, for a value of a choice, of the choice. `rule` is this
function, and a solution is what it leaves as it is.

Where no symbol depends on itself there is one solution. A choice takes part as if its values were
in it: which of them it is depends on whether their prompts can be seen.
-/

namespace Dir842.Kconfig

variable {S : Type*}

/-! ### Symbols with their properties -/

structure Default (S : Type*) where
  visible : Option (Expr S)
  expr : Expr S

structure Range (S : Type*) where
  visible : Option (Expr S)
  left : S
  right : S

/-- The symbols of a finished menu. -/
structure Table (S : Type*) extends Symbols S where
  /-- The conditions of the prompts. -/
  prompts : S → List (Option (Expr S))
  defaults : S → List (Default S)
  ranges : S → List (Range S)
  dirDep : S → Option (Expr S)
  revDep : S → Option (Expr S)
  implied : S → Option (Expr S)
  isChoice : S → Bool
  /-- The choice that a symbol is a value of. -/
  choiceOf : S → Option S
  values : S → List S
  /-- `modules_sym` -/
  modules : S
  /-- `SYMBOL_AUTO` -/
  auto : S → Bool

/-- `struct symbol_value`; `chosen` is the value of a choice, which is a symbol. -/
structure SymbolValue (S : Type*) where
  tri : Tristate
  val : Text
  chosen : Option S

def symbolEmpty : SymbolValue S := ⟨.no, [], none⟩

def symbolNo : SymbolValue S := ⟨.no, "n".toList, none⟩

/-- What changes of a symbol while values are calculated. -/
structure Cell (S : Type*) where
  /-- `SYMBOL_VALID` -/
  valid : Bool
  /-- `SYMBOL_DEF_USER` -/
  hasValue : Bool
  /-- `SYMBOL_WRITE` -/
  write : Bool
  curr : SymbolValue S
  visible : Tristate
  dirDep : Tristate
  revDep : Tristate
  implied : Tristate

/-! ### Numbers of ranges -/

/-- `strtoll` of what a text begins with, for the bases 10 and 16. -/
def strtoll (base : ℕ) (str : Text) : Int :=
  let str := str.dropWhile isSpace
  let (neg, str) := match str with
    | '-' :: str => (true, str)
    | '+' :: str => (false, str)
    | str => (false, str)
  let str := if base = 16 then stripHexPrefix str else str
  let n := (str.takeWhile fun c => isXDigit c && xDigitVal c < base).foldl
    (fun n c => base * n + xDigitVal c) 0
  if neg then max (-n) (-9223372036854775808) else min n 9223372036854775807

/-- `"%lld"` -/
def lldText (v : Int) : Text :=
  if v < 0 then '-' :: Nat.toDigits 10 v.natAbs else Nat.toDigits 10 v.natAbs

/-- `"0x%llx"` -/
def llxText (v : Int) : Text :=
  "0x".toList ++ Nat.toDigits 16 (v % 18446744073709551616).toNat

def baseOf : Option SymType → ℕ → ℕ
  | some .int, _ => 10
  | some .hex, _ => 16
  | _, base => base

def rangeText (type : Option SymType) (v : Int) : Text :=
  if type = some .int then lldText v else llxText v

/-- `prop_get_symbol` of a default -/
def propGetSymbol : Expr S → Option S
  | .symbol s => some s
  | _ => none

namespace Table
variable (T : Table S)

def isChoiceValue (s : S) : Bool := (T.choiceOf s).isSome

def symGetType (s : S) (visible modulesVal : Tristate) : Option SymType :=
  if T.type s = some .tristate ∧ (T.isChoiceValue s ∧ visible = .yes ∨ modulesVal = .no) then
    some .boolean
  else T.type s

/-- `m` is `y` for a symbol that is a `bool`. -/
def noMod (s : S) (visible modulesVal tri : Tristate) : Tristate :=
  if tri = .mod ∧ T.symGetType s visible modulesVal = some .boolean then .yes else tri

/-- A prompt can be `m` for a tristate, where there are modules. -/
def noModPrompt (s : S) (modulesVal tri : Tristate) : Tristate :=
  if tri = .mod ∧ (T.type s ≠ some .tristate ∨ modulesVal = .no) then .yes else tri

variable (w : S → Cell S)

/-! ### Conditions under given values -/

def strVal (s : S) : Text :=
  if T.IsTri s then
    match (w s).curr.tri with
    | .no => triText .no
    | .mod => if (w T.modules).curr.tri = .no then triText .no else triText .mod
    | .yes => triText .yes
  else (w s).curr.val

def exprVal : Expr S → Tristate
  | .symbol s => (w s).curr.tri
  | .not e => (exprVal e).not
  | .junct t l r => t.op (exprVal l) (exprVal r)
  | .comp rel l r =>
    .ofBool (rel.holds (compareStrings (T.strVal w l) (T.type l) (T.strVal w r) (T.type r)))

def condVal (cond : Option (Expr S)) : Tristate := cond.elim .yes (T.exprVal w)

/-- A value of a tristate choice that is `y` cannot be `m`. -/
def promptVal (s : S) (cond : Option (Expr S)) : Tristate :=
  let tri := T.condVal w cond
  if T.type s = some .tristate ∧ tri = .mod ∧ (T.choiceOf s).any fun c => (w c).curr.tri = .yes then
    .no
  else tri

def promptsVal (s : S) : Tristate :=
  (T.prompts s).foldl (fun tri cond => tri.or (T.promptVal w s cond)) .no

def visibleVal (s : S) : Tristate :=
  T.noModPrompt s (w T.modules).curr.tri (T.promptsVal w s)

/-- What `sym_calc_visibility` makes of a symbol. -/
def visibilityVal (s : S) (c : Cell S) : Cell S :=
  let vis := T.visibleVal w s
  let modulesVal := (w T.modules).curr.tri
  if T.isChoiceValue s then { c with visible := vis }
  else
    let dir := T.noMod s vis modulesVal (T.condVal w (T.dirDep s))
    let rev := T.noMod s vis modulesVal ((T.revDep s).elim .no (T.exprVal w))
    let imp := T.noMod s vis modulesVal
      (if dir = .no then .no else (T.implied s).elim .no (T.exprVal w))
    { c with visible := vis, dirDep := dir, revDep := rev, implied := imp }

/-- The first default that applies, and how far. -/
def defaultVal (s : S) : Option (Default S × Tristate) :=
  (T.defaults s).findSome? fun p =>
    let tri := T.condVal w p.visible
    if tri = .no then none else some (p, tri)

/-! ### Values -/

variable (user : S → SymbolValue S)

/-- The value of a `bool` or a tristate that the user has not set, with `SYMBOL_WRITE`. -/
def unsetVal (s : S) (c : Cell S) : Tristate × Bool :=
  let write := c.write || c.revDep ≠ .no
  if T.isChoice s then (.no, write)
  else
    let p := (T.defaultVal w s).elim (Tristate.no, write) fun p =>
      let tri := (T.exprVal w p.1.expr).and p.2
      (tri, write || tri ≠ .no)
    if c.implied ≠ .no then (p.1.or c.implied, true) else p

/-- The value of a `bool` or a tristate before `m` is made `y`. -/
def newTriVal [DecidableEq S] (s : S) (c : Cell S) : Tristate × Bool :=
  if T.isChoiceValue s ∧ c.visible = .yes then
    (.ofBool ((T.choiceOf s).any fun choice => (w choice).curr.chosen = some s), c.write)
  else if c.visible ≠ .no ∧ c.hasValue then
    (((user s).tri.and c.visible).or c.revDep, c.write)
  else
    let p := T.unsetVal w s c
    (p.1.or c.revDep, p.2)

def finishTri (s : S) (c : Cell S) (modulesVal tri : Tristate) : Tristate :=
  if tri = .mod ∧ (T.symGetType s c.visible modulesVal = some .boolean ∨ c.implied = .yes) then .yes
  else tri

def triVal [DecidableEq S] (s : S) (c : Cell S) : Cell S :=
  let p := T.newTriVal w user s c
  { c with
    write := p.2
    curr := { symbolNo with tri := T.finishTri s c (w T.modules).curr.tri p.1 } }

/-- The first range that applies. -/
def rangeVal (s : S) : Option (Range S) :=
  (T.ranges s).find? fun p => T.condVal w p.visible ≠ .no

/-- `sym_get_range_val` -/
def rangeNumber (base : ℕ) (s : S) : Int := strtoll (baseOf (T.type s) base) (w s).curr.val

/-- `sym_validate_range` -/
def validVal (s : S) (val : Text) : Text :=
  if T.type s = some .int ∨ T.type s = some .hex then
    (T.rangeVal w s).elim val fun p =>
      let base := baseOf (T.type s) 0
      let v := strtoll base val
      if T.rangeNumber w base p.left ≤ v then
        if v ≤ T.rangeNumber w base p.right then val
        else rangeText (T.type s) (T.rangeNumber w base p.right)
      else rangeText (T.type s) (T.rangeNumber w base p.left)
  else val

/-- The text of a symbol that is no `bool` or tristate, with `SYMBOL_WRITE`. -/
def newTextVal (s : S) (c : Cell S) : Text × Bool :=
  if c.visible ≠ .no ∧ c.hasValue then ((user s).val, c.write)
  else
    ((T.defaultVal w s).bind fun p => propGetSymbol p.1.expr).elim ([], c.write) fun ds =>
      ((w ds).curr.val, true)

def textVal (s : S) (c : Cell S) : Cell S :=
  let p := T.newTextVal w user s c
  { c with write := p.2, curr := { symbolEmpty with val := T.validVal w s p.1 } }

/-- `sym_choice_default` -/
def choiceDefaultVal (s : S) : Option S :=
  ((T.defaults s).findSome? fun p =>
    if T.condVal w p.visible = .no then none
    else (propGetSymbol p.expr).filter fun v => T.visibleVal w v ≠ .no).or
  ((T.values s).find? fun v => T.visibleVal w v ≠ .no)

/-- `sym_calc_choice`, which takes back that the user has set the choice if this is not so for all
values that can be seen. -/
def chosenVal (has : S → Bool) (s : S) (c : Cell S) : Cell S :=
  let chosen := ((user s).chosen.filter fun v => T.visibleVal w v ≠ .no).or (T.choiceDefaultVal w s)
  { c with
    hasValue := c.hasValue && (T.values s).all fun v => T.visibleVal w v = .no || has v
    curr := { c.curr with tri := if chosen = none then .no else c.curr.tri, chosen := chosen } }

variable [DecidableEq S] (has : S → Bool)

/-- A symbol of which the visibility is known. -/
def visibleCell (s : S) : Cell S :=
  let c := T.visibilityVal w s ⟨true, has s, false, symbolEmpty, .no, .no, .no, .no⟩
  { c with write := c.visible ≠ .no }

/-- A symbol with its value, if it is not a choice. -/
def currCell (s : S) : Cell S :=
  if T.IsTri s then T.triVal w user s (T.visibleCell w has s)
  else T.textVal w user s (T.visibleCell w has s)

/-- The values of a choice see it as it is before one of them is taken. -/
def chosenCell (s : S) : Cell S :=
  let c := T.currCell w user has s
  if T.isChoice s ∧ c.curr.tri = .yes then T.chosenVal (Function.update w s c) user has s c else c

/-- What `sym_calc_value` makes of a symbol under the values of the others. -/
def rule (s : S) : Cell S :=
  if T.type s = none then ⟨true, has s, false, ⟨.no, T.name s, none⟩, .no, .no, .no, .no⟩
  else
    let c := T.chosenCell w user has s
    if T.auto s then { c with write := false } else c

/-- The cells of `y`, `m` and `n`. -/
def constCell (t : Tristate) : Cell S :=
  ⟨true, false, false, ⟨t, triText t, none⟩, .no, .no, .no, .no⟩

structure Solves : Prop where
  const : ∀ t, w (T.const t) = constCell t
  rule : ∀ s, (∀ t, s ≠ T.const t) → w s = T.rule w user has s

/-! ### Tables without recursive dependencies -/

/-- The expression is about symbols below `k` only. -/
def Below (rank : S → ℕ) (k : ℕ) (e : Expr S) : Prop :=
  ∀ t, exprContainsSymbol t e = true → rank t < k

/-- No symbol depends on itself. The values of a choice depend on it, and not it on them, also where
a default names one; what else their prompts depend on is below the choice. -/
structure Acyclic (rank : S → ℕ) : Prop where
  prompts : ∀ {s cond e}, cond ∈ T.prompts s → e ∈ cond → Below rank (rank s) e
  defaults : ∀ {s p}, p ∈ T.defaults s → ∀ e ∈ p.visible, Below rank (rank s) e
  default : ∀ {s p}, p ∈ T.defaults s → T.isChoice s = false → Below rank (rank s) p.expr
  ranges : ∀ {s p}, p ∈ T.ranges s →
    (∀ e ∈ p.visible, Below rank (rank s) e) ∧ rank p.left < rank s ∧ rank p.right < rank s
  dirDep : ∀ {s}, ∀ e ∈ T.dirDep s, Below rank (rank s) e
  revDep : ∀ {s}, ∀ e ∈ T.revDep s, Below rank (rank s) e
  implied : ∀ {s}, ∀ e ∈ T.implied s, Below rank (rank s) e
  choice : ∀ {s c}, T.choiceOf s = some c → rank c < rank s
  value : ∀ {c v cond e t}, v ∈ T.values c → cond ∈ T.prompts v → e ∈ cond →
    exprContainsSymbol t e = true → t ≠ c → rank t < rank c
  modules : ∀ {s}, T.type s = some .tristate → rank T.modules < rank s
  choiceModules : ∀ {s c}, T.choiceOf s = some c → T.type s = some .tristate →
    rank T.modules < rank c

/-- What the parser sees to about choices, and `menu_finalize` about the prompts in them. -/
structure Choices : Prop where
  mem_values : ∀ {s c}, T.choiceOf s = some c ↔ s ∈ T.values c
  isTri : ∀ {c}, T.isChoice c = true → T.IsTri c
  isChoice : ∀ {s c}, T.choiceOf s = some c → T.isChoice c = true
  not_value : ∀ {c}, T.isChoice c = true → T.choiceOf c = none
  prompts : ∀ {s c cond}, T.choiceOf s = some c → cond ∈ T.prompts s →
    ∃ e ∈ cond, exprDependsSymbol T.toSymbols c e = true
  defaults : ∀ {c p}, T.isChoice c = true → p ∈ T.defaults c → ∃ v ∈ T.values c, p.expr = .symbol v
  auto : ∀ {s c}, T.choiceOf s = some c → T.auto s = false
  type : ∀ {s c}, T.choiceOf s = some c → T.type s ≠ none

/-! ### What a value is a function of -/

section congr
variable {T} {user} {has} {w w' : S → Cell S} {P : S → Prop} {s : S} {e : Expr S}

/-- The values are the same where `P` holds, and `MODULES` is where it matters. -/
structure Agree (T : Table S) (P : S → Prop) (w w' : S → Cell S) : Prop where
  tri : ∀ {t}, P t → (w t).curr.tri = (w' t).curr.tri
  val : ∀ {t}, P t → (w t).curr.val = (w' t).curr.val
  modules : ∀ {t}, P t → T.type t = some .tristate →
    (w T.modules).curr.tri = (w' T.modules).curr.tri
  ne_mod : ∀ {t}, P t → T.type t = some .boolean → (w t).curr.tri ≠ .mod

omit [DecidableEq S] in
theorem Agree.strVal (h : Agree T P w w') (hs : P s) : T.strVal w s = T.strVal w' s := by
  rw [Table.strVal, Table.strVal, ← h.tri hs, ← h.val hs]
  by_cases htri : T.IsTri s
  · rw [if_pos htri, if_pos htri]
    rcases htri with hbool | htri
    · have hne := h.ne_mod hs hbool
      cases hval : (w s).curr.tri
      case mod => exact absurd hval hne
      all_goals rfl
    · rw [h.modules hs htri]
  · rw [if_neg htri, if_neg htri]

theorem Agree.exprVal (h : Agree T P w w') (he : ∀ t, exprContainsSymbol t e = true → P t) :
    T.exprVal w e = T.exprVal w' e := by
  induction e with
  | symbol s =>
    have hs := he s (decide_eq_true rfl)
    rw [Table.exprVal, Table.exprVal, h.tri hs]
  | not e ih => rw [Table.exprVal, Table.exprVal, ih he]
  | junct t l r ihl ihr =>
    rw [Table.exprVal, Table.exprVal, ihl fun t ht => he t (Bool.or_eq_true_iff.mpr (.inl ht)),
      ihr fun t ht => he t (Bool.or_eq_true_iff.mpr (.inr ht))]
  | comp rel l r =>
    have hl := he l (Bool.or_eq_true_iff.mpr (.inl (decide_eq_true rfl)))
    have hr := he r (Bool.or_eq_true_iff.mpr (.inr (decide_eq_true rfl)))
    rw [Table.exprVal, Table.exprVal, h.strVal hl, h.strVal hr]

theorem Agree.condVal (h : Agree T P w w') {cond : Option (Expr S)}
    (he : ∀ e ∈ cond, ∀ t, exprContainsSymbol t e = true → P t) : T.condVal w cond = T.condVal w' cond := by
  rcases cond with _ | e
  · rfl
  · exact h.exprVal (he e rfl)

theorem Agree.elimVal (h : Agree T P w w') {cond : Option (Expr S)}
    (he : ∀ e ∈ cond, ∀ t, exprContainsSymbol t e = true → P t) :
    cond.elim .no (T.exprVal w) = cond.elim .no (T.exprVal w') := by
  rcases cond with _ | e
  · rfl
  · exact h.exprVal (he e rfl)

theorem Agree.promptsVal (h : Agree T P w w')
    (hprompts : ∀ cond ∈ T.prompts s, ∀ e ∈ cond, ∀ t, exprContainsSymbol t e = true → P t)
    (hchoice : ∀ c, T.choiceOf s = some c → P c) : T.promptsVal w s = T.promptsVal w' s := by
  refine List.foldl_ext _ _ _ fun tri cond hcond => ?_
  rw [promptVal, promptVal, h.condVal (hprompts cond hcond)]
  rcases hc : T.choiceOf s with _ | c
  · rfl
  · rw [Option.any_some, Option.any_some, h.tri (hchoice c hc)]

omit [DecidableEq S] in
theorem noModPrompt_congr {modulesVal modulesVal' : Tristate}
    (hmodules : T.type s = some .tristate → modulesVal = modulesVal') (tri : Tristate) :
    T.noModPrompt s modulesVal tri = T.noModPrompt s modulesVal' tri := by
  by_cases htype : T.type s = some .tristate
  · rw [hmodules htype]
  · simp only [noModPrompt, htype, ne_eq, not_false_eq_true, true_or]

theorem Agree.visibleVal (h : Agree T P w w')
    (hprompts : ∀ cond ∈ T.prompts s, ∀ e ∈ cond, ∀ t, exprContainsSymbol t e = true → P t)
    (hchoice : ∀ c, T.choiceOf s = some c → P c)
    (hmodules : T.type s = some .tristate →
      (w T.modules).curr.tri = (w' T.modules).curr.tri) :
    T.visibleVal w s = T.visibleVal w' s := by
  rw [Table.visibleVal, Table.visibleVal, h.promptsVal hprompts hchoice, noModPrompt_congr hmodules]

omit [DecidableEq S] in
theorem noMod_congr {modulesVal modulesVal' : Tristate}
    (hmodules : T.type s = some .tristate → modulesVal = modulesVal') (visible tri : Tristate) :
    T.noMod s visible modulesVal tri = T.noMod s visible modulesVal' tri := by
  by_cases htype : T.type s = some .tristate
  · rw [hmodules htype]
  · simp only [noMod, symGetType, htype, false_and]

omit [DecidableEq S] in
theorem finishTri_congr {modulesVal modulesVal' : Tristate}
    (hmodules : T.type s = some .tristate → modulesVal = modulesVal') (c : Cell S) (tri : Tristate) :
    T.finishTri s c modulesVal tri = T.finishTri s c modulesVal' tri := by
  by_cases htype : T.type s = some .tristate
  · rw [hmodules htype]
  · simp only [finishTri, symGetType, htype, false_and]

omit [DecidableEq S] in
theorem findSome?_ext {α β : Type*} {f g : α → Option β} {l : List α} (h : ∀ a ∈ l, f a = g a) :
    l.findSome? f = l.findSome? g := by
  induction l with
  | nil => rfl
  | cons a l ih =>
    obtain ⟨ha, hl⟩ := List.forall_mem_cons.mp h
    rw [List.findSome?_cons, List.findSome?_cons, ha, ih hl]

theorem Agree.defaultVal (h : Agree T P w w')
    (hdefaults : ∀ p ∈ T.defaults s, ∀ e ∈ p.visible, ∀ t, exprContainsSymbol t e = true → P t) :
    T.defaultVal w s = T.defaultVal w' s :=
  findSome?_ext fun p hp => by rw [h.condVal (hdefaults p hp)]

omit [DecidableEq S] in
theorem mem_of_defaultVal {p : Default S × Tristate} (h : T.defaultVal w s = some p) :
    p.1 ∈ T.defaults s := by
  obtain ⟨p', hp', hsome⟩ := List.exists_of_findSome?_eq_some h
  dsimp only at hsome
  split_ifs at hsome
  cases hsome
  exact hp'

theorem Agree.rangeVal (h : Agree T P w w')
    (hranges : ∀ p ∈ T.ranges s, ∀ e ∈ p.visible, ∀ t, exprContainsSymbol t e = true → P t) :
    T.rangeVal w s = T.rangeVal w' s :=
  List.find?_congr fun p hp => by rw [h.condVal (hranges p hp)]

section own
variable {rank : S → ℕ}

/-- The part of `rule` that is about the symbol itself sees the symbols below it. -/
theorem Agree.visibilityVal (hacyclic : T.Acyclic rank) (h : Agree T (rank · < rank s) w w')
    (c : Cell S) : T.visibilityVal w s c = T.visibilityVal w' s c := by
  have hmodules : T.type s = some .tristate → (w T.modules).curr.tri = (w' T.modules).curr.tri :=
    fun htype => h.tri (hacyclic.modules htype)
  have hvisible := h.visibleVal (fun cond hcond e he => hacyclic.prompts hcond he)
    (fun c hc => hacyclic.choice hc) hmodules
  have hnoMod : ∀ vis tri, T.noMod s vis (w T.modules).curr.tri tri =
      T.noMod s vis (w' T.modules).curr.tri tri :=
    noMod_congr hmodules
  simp only [Table.visibilityVal, hvisible, hnoMod, h.condVal hacyclic.dirDep,
    h.elimVal hacyclic.revDep, h.elimVal hacyclic.implied]

theorem Agree.triVal (hacyclic : T.Acyclic rank) (h : Agree T (rank · < rank s) w w')
    (hchosen : ∀ c, T.choiceOf s = some c → (w c).curr.chosen = (w' c).curr.chosen) (c : Cell S) :
    T.triVal w user s c = T.triVal w' user s c := by
  have hmodules : T.type s = some .tristate → (w T.modules).curr.tri = (w' T.modules).curr.tri :=
    fun htype => h.tri (hacyclic.modules htype)
  have hdefault := h.defaultVal fun p hp e he => hacyclic.defaults hp e he
  have hunset : T.unsetVal w s c = T.unsetVal w' s c := by
    rw [unsetVal, unsetVal, hdefault]
    by_cases hchoice : T.isChoice s = true
    · rw [if_pos hchoice, if_pos hchoice]
    rcases hp : T.defaultVal w' s with _ | p
    · rfl
    · have hbelow := hacyclic.default (mem_of_defaultVal hp) (Bool.eq_false_of_not_eq_true hchoice)
      rw [Option.elim_some, Option.elim_some, h.exprVal hbelow]
  have hnew : T.newTriVal w user s c = T.newTriVal w' user s c := by
    rw [newTriVal, newTriVal, hunset]
    rcases hc : T.choiceOf s with _ | choice
    · rfl
    · rw [Option.any_some, Option.any_some, hchosen choice hc]
  rw [Table.triVal, Table.triVal, hnew, finishTri_congr hmodules]

theorem Agree.validVal (hacyclic : T.Acyclic rank) (h : Agree T (rank · < rank s) w w') (val : Text) :
    T.validVal w s val = T.validVal w' s val := by
  rw [Table.validVal, Table.validVal, h.rangeVal fun p hp e he => (hacyclic.ranges hp).1 e he]
  rcases hp : T.rangeVal w' s with _ | p
  · rfl
  · obtain ⟨-, hleft, hright⟩ := hacyclic.ranges (List.mem_of_find?_eq_some hp)
    have hnumber : ∀ base, T.rangeNumber w base p.left = T.rangeNumber w' base p.left ∧
        T.rangeNumber w base p.right = T.rangeNumber w' base p.right := fun base => by
      rw [rangeNumber, rangeNumber, rangeNumber, rangeNumber, h.val hleft, h.val hright]
      exact ⟨rfl, rfl⟩
    simp only [Option.elim_some, hnumber]

theorem propGetSymbol_contains {e : Expr S} {ds : S} (h : propGetSymbol e = some ds) :
    exprContainsSymbol ds e = true := by
  cases e <;> cases h
  exact decide_eq_true rfl

theorem Agree.textVal (hacyclic : T.Acyclic rank) (h : Agree T (rank · < rank s) w w')
    (hs : T.isChoice s = false) (c : Cell S) : T.textVal w user s c = T.textVal w' user s c := by
  have hnew : T.newTextVal w user s c = T.newTextVal w' user s c := by
    rw [newTextVal, newTextVal, h.defaultVal fun p hp e he => hacyclic.defaults hp e he]
    rcases hp : T.defaultVal w' s with _ | p
    · rfl
    rw [Option.bind_some]
    rcases hds : propGetSymbol p.1.expr with _ | ds
    · rfl
    · have hlt := hacyclic.default (mem_of_defaultVal hp) hs ds (propGetSymbol_contains hds)
      rw [Option.elim_some, Option.elim_some, h.val hlt]
  rw [Table.textVal, Table.textVal, hnew, h.validVal hacyclic]

/-- The values of a choice see the choice and what is below it. -/
theorem Agree.visibleVal_value (hacyclic : T.Acyclic rank) (hchoices : T.Choices)
    (h : Agree T (fun t => t = s ∨ rank t < rank s) w w') {v : S} (hv : v ∈ T.values s) :
    T.visibleVal w v = T.visibleVal w' v := by
  have hchoice := hchoices.mem_values.mpr hv
  refine h.visibleVal (fun cond hcond e he t ht => ?_) (fun c hc => ?_) fun htype => ?_
  · exact or_iff_not_imp_left.mpr (hacyclic.value hv hcond he ht)
  · rw [hchoice] at hc
    exact .inl (Option.some.inj hc).symm
  · exact h.tri (.inr (hacyclic.choiceModules hchoice htype))

theorem Agree.chosenVal (hacyclic : T.Acyclic rank) (hchoices : T.Choices)
    (huser : ∀ v ∈ (user s).chosen, v ∈ T.values s) (hs : T.isChoice s = true)
    (h : Agree T (fun t => t = s ∨ rank t < rank s) w w') (c : Cell S) :
    T.chosenVal w user has s c = T.chosenVal w' user has s c := by
  have hvisible := fun v (hv : v ∈ T.values s) => h.visibleVal_value hacyclic hchoices hv
  have hdefault : T.choiceDefaultVal w s = T.choiceDefaultVal w' s := by
    rw [choiceDefaultVal, choiceDefaultVal, List.find?_congr fun v hv => by rw [hvisible v hv]]
    congr 1
    refine findSome?_ext fun p hp => ?_
    obtain ⟨v, hv, hexpr⟩ := hchoices.defaults hs hp
    rw [h.condVal fun e he t ht => .inr (hacyclic.defaults hp e he t ht), hexpr]
    show (if _ then none else Option.filter _ (some v)) = if _ then none else Option.filter _ (some v)
    rw [Option.filter_some, Option.filter_some, hvisible v hv]
  have hfilter : ((user s).chosen.filter fun v => T.visibleVal w v ≠ .no) =
      (user s).chosen.filter fun v => T.visibleVal w' v ≠ .no := by
    rcases hchosen : (user s).chosen with _ | v
    · rfl
    · rw [Option.filter_some, Option.filter_some, hvisible v (huser v hchosen)]
  have hall : ((T.values s).all fun v => T.visibleVal w v = .no || has v) =
      (T.values s).all fun v => T.visibleVal w' v = .no || has v := by
    rw [Bool.eq_iff_iff, List.all_eq_true, List.all_eq_true]
    exact forall₂_congr fun v hv => by rw [hvisible v hv]
  rw [Table.chosenVal, Table.chosenVal, hdefault, hfilter, hall]

theorem Agree.of_eq (hacyclic : T.Acyclic rank) (hne : ∀ {t}, T.type t = some .boolean → (w t).curr.tri ≠ .mod)
    (h : ∀ {t}, rank t < rank s → w t = w' t) : Agree T (rank · < rank s) w w' :=
  ⟨fun ht => by rw [h ht], fun ht => by rw [h ht],
    fun ht htype => by rw [h ((hacyclic.modules htype).trans ht)], fun _ => hne⟩

/-- The choice `s` with the cell `c` -/
theorem Agree.update (hacyclic : T.Acyclic rank) (h : Agree T (rank · < rank s) w w') {c c' : Cell S}
    (hc : c.curr.tri = .yes) (hc' : c'.curr.tri = .yes) (hval : c.curr.val = c'.curr.val) :
    Agree T (fun t => t = s ∨ rank t < rank s) (Function.update w s c) (Function.update w' s c') := by
  have hupdate : ∀ {t : S} (u : S → Cell S) (x : Cell S), rank t < rank s →
      Function.update u s x t = u t := fun {t} u x ht =>
    Function.update_of_ne (fun heq : t = s => lt_irrefl _ (heq ▸ ht)) x u
  have htri : ∀ {t}, rank t < rank s →
      (Function.update w s c t).curr.tri = (Function.update w' s c' t).curr.tri := fun ht => by
    rw [hupdate w c ht, hupdate w' c' ht, h.tri ht]
  refine ⟨?_, ?_, ?_, ?_⟩
  · rintro t (rfl | ht)
    · rw [Function.update_self, Function.update_self, hc, hc']
    · exact htri ht
  · rintro t (rfl | ht)
    · rw [Function.update_self, Function.update_self, hval]
    · rw [hupdate w c ht, hupdate w' c' ht, h.val ht]
  · rintro t (rfl | ht) htype
    · exact htri (hacyclic.modules htype)
    · exact htri ((hacyclic.modules htype).trans ht)
  · rintro t (rfl | ht) htype
    · rw [Function.update_self, hc]
      exact Tristate.noConfusion
    · rw [hupdate w c ht]
      exact h.ne_mod ht htype

theorem Agree.currCell (hacyclic : T.Acyclic rank) (hchoices : T.Choices)
    (h : Agree T (rank · < rank s) w w')
    (hchosen : ∀ c, T.choiceOf s = some c → (w c).curr.chosen = (w' c).curr.chosen) :
    T.currCell w user has s = T.currCell w' user has s := by
  have hcell : T.visibleCell w has s = T.visibleCell w' has s := by
    rw [visibleCell, visibleCell, h.visibilityVal hacyclic]
  rw [Table.currCell, Table.currCell, hcell]
  by_cases htri : T.IsTri s
  · rw [if_pos htri, if_pos htri, h.triVal hacyclic hchosen]
  · have hs := Bool.eq_false_of_not_eq_true (mt hchoices.isTri htri)
    rw [if_neg htri, if_neg htri, h.textVal hacyclic hs]

/-- The value of a symbol is a function of the values of the symbols below it. -/
theorem rule_congr (hacyclic : T.Acyclic rank) (hchoices : T.Choices)
    (huser : ∀ c, ∀ v ∈ (user c).chosen, v ∈ T.values c)
    (hne : ∀ {t}, T.type t = some .boolean → (w t).curr.tri ≠ .mod)
    (heq : ∀ {t}, rank t < rank s → w t = w' t) : T.rule w user has s = T.rule w' user has s := by
  have h : Agree T (rank · < rank s) w w' := Agree.of_eq hacyclic hne heq
  have hcurr : T.currCell w user has s = T.currCell w' user has s :=
    h.currCell hacyclic hchoices fun c hc => by rw [heq (hacyclic.choice hc)]
  have hchosen : T.chosenCell w user has s = T.chosenCell w' user has s := by
    rw [chosenCell, chosenCell, hcurr]
    by_cases hchoice : T.isChoice s = true ∧ (T.currCell w' user has s).curr.tri = .yes
    · have hupdate := h.update hacyclic hchoice.2 hchoice.2 rfl
      rw [if_pos hchoice, if_pos hchoice, hupdate.chosenVal hacyclic hchoices (huser s) hchoice.1]
    · rw [if_neg hchoice, if_neg hchoice]
  rw [rule, rule, hchosen]

end own

end congr

/-! ### The solution -/

section solution
variable {T} {user} {has} {w w' : S → Cell S} {rank : S → ℕ}

omit [DecidableEq S] in
theorem symGetType_of_boolean {s : S} (h : T.type s = some .boolean) (visible modulesVal : Tristate) :
    T.symGetType s visible modulesVal = some .boolean := by
  rw [symGetType, h, if_neg]
  rintro ⟨h, -⟩
  cases h

theorem chosenCell_tri (s : S) :
    (T.chosenCell w user has s).curr.tri = (T.currCell w user has s).curr.tri ∨
      (T.chosenCell w user has s).curr.tri = .no := by
  rw [chosenCell]
  split_ifs
  · rw [chosenVal]
    dsimp only
    split_ifs
    · exact .inr rfl
    · exact .inl rfl
  · exact .inl rfl

/-- A `bool` is never `m`. -/
theorem rule_ne_mod {s : S} (h : T.type s = some .boolean) : (T.rule w user has s).curr.tri ≠ .mod := by
  have hcurr : (T.currCell w user has s).curr.tri ≠ .mod := by
    rw [currCell, if_pos (.inl h)]
    show T.finishTri s _ _ _ ≠ .mod
    rw [finishTri, symGetType_of_boolean h]
    split_ifs with htri
    · exact Tristate.noConfusion
    · exact fun heq => htri ⟨heq, .inl rfl⟩
  have hchosen : (T.chosenCell w user has s).curr.tri ≠ .mod := by
    rcases @chosenCell_tri _ T user _ has w s with heq | heq
    · rwa [heq]
    · rw [heq]
      exact Tristate.noConfusion
  rw [rule, if_neg (by rw [h]; exact Option.some_ne_none _)]
  dsimp only
  split_ifs
  · exact hchosen
  · exact hchosen

theorem Solves.ne_mod (h : T.Solves w user has) {s : S} (hs : T.type s = some .boolean) :
    (w s).curr.tri ≠ .mod := by
  rw [h.rule s fun t heq => ne_const_of_type hs t heq]
  exact rule_ne_mod hs

/-- There is at most one solution. -/
theorem Solves.unique (hacyclic : T.Acyclic rank) (hchoices : T.Choices)
    (huser : ∀ c, ∀ v ∈ (user c).chosen, v ∈ T.values c) (h : T.Solves w user has)
    (h' : T.Solves w' user has) : w = w' := by
  have hlt : ∀ n s, rank s < n → w s = w' s := by
    intro n
    induction n with
    | zero => exact fun s hs => absurd hs (Nat.not_lt_zero _)
    | succ n ih =>
      intro s hs
      by_cases hconst : ∃ t, s = T.const t
      · obtain ⟨t, rfl⟩ := hconst
        rw [h.const, h'.const]
      rw [not_exists] at hconst
      have hbelow : ∀ {t}, rank t < rank s → w t = w' t := fun ht =>
        ih _ (ht.trans_le (Nat.le_of_lt_succ hs))
      rw [h.rule s hconst, h'.rule s hconst]
      exact rule_congr hacyclic hchoices huser h.ne_mod hbelow
  exact funext fun s => hlt _ s (Nat.lt_succ_self _)

variable (T user has)

/-- The constant that a symbol is. -/
def constOf (s : S) : Option Tristate :=
  if s = T.const .no then some .no else if s = T.const .mod then some .mod
  else if s = T.const .yes then some .yes else none

/-- The values of the symbols below `n`. -/
def solve : ℕ → S → Cell S
  | 0, s => (T.constOf s).elim (constCell .no) constCell
  | n + 1, s => (T.constOf s).elim (T.rule (solve n) user has s) constCell

variable {T user has}

theorem constOf_const (t : Tristate) : T.constOf (T.const t) = some t := by
  have hne : ∀ {t'}, t ≠ t' → T.const t ≠ T.const t' := fun h heq => h (T.const_injective heq)
  rw [constOf]
  cases t
  · rw [if_pos rfl]
  · rw [if_neg (hne (by decide)), if_pos rfl]
  · rw [if_neg (hne (by decide)), if_neg (hne (by decide)), if_pos rfl]

theorem constOf_eq_none {s : S} (h : ∀ t, s ≠ T.const t) : T.constOf s = none := by
  rw [constOf, if_neg (h _), if_neg (h _), if_neg (h _)]

theorem solve_ne_mod {n : ℕ} {s : S} (hs : T.type s = some .boolean) :
    (T.solve user has n s).curr.tri ≠ .mod := by
  have hnone := @constOf_eq_none _ T _ s fun t heq => ne_const_of_type hs t heq
  cases n with
  | zero =>
    rw [solve, hnone]
    exact Tristate.noConfusion
  | succ n =>
    rw [solve, hnone]
    exact rule_ne_mod hs

theorem solve_eq (hacyclic : T.Acyclic rank) (hchoices : T.Choices)
    (huser : ∀ c, ∀ v ∈ (user c).chosen, v ∈ T.values c) {n m : ℕ} {s : S} (hn : rank s < n)
    (hm : rank s < m) : T.solve user has n s = T.solve user has m s := by
  induction n generalizing m s with
  | zero => exact absurd hn (Nat.not_lt_zero _)
  | succ n ih =>
    rcases m with _ | m
    · exact absurd hm (Nat.not_lt_zero _)
    rw [solve, solve]
    have hbelow : ∀ {t}, rank t < rank s → T.solve user has n t = T.solve user has m t := fun ht =>
      ih (ht.trans_le (Nat.le_of_lt_succ hn)) (ht.trans_le (Nat.le_of_lt_succ hm))
    rw [rule_congr hacyclic hchoices huser solve_ne_mod hbelow]

theorem solves_solve (hacyclic : T.Acyclic rank) (hchoices : T.Choices)
    (huser : ∀ c, ∀ v ∈ (user c).chosen, v ∈ T.values c) :
    T.Solves (fun s => T.solve user has (rank s + 1) s) user has := by
  refine ⟨fun t => ?_, fun s hs => ?_⟩
  · show (T.constOf (T.const t)).elim _ constCell = _
    rw [constOf_const]
    rfl
  · show (T.constOf s).elim _ constCell = _
    rw [constOf_eq_none hs]
    have hbelow : ∀ {t}, rank t < rank s →
        T.solve user has (rank s) t = T.solve user has (rank t + 1) t := fun ht =>
      solve_eq hacyclic hchoices huser ht (Nat.lt_succ_self _)
    exact rule_congr hacyclic hchoices huser solve_ne_mod hbelow

/-! ### Values of choices -/

theorem exprContainsSymbol_of_depends {c : S} {e : Expr S}
    (h : exprDependsSymbol T.toSymbols c e = true) : exprContainsSymbol c e = true := by
  induction e with
  | symbol s => exact h
  | not e => cases h
  | junct t l r ihl ihr =>
    cases t
    · exact Bool.or_eq_true_iff.mpr ((Bool.or_eq_true_iff.mp h).imp ihl ihr)
    · cases h
  | comp rel l r =>
    refine Bool.or_eq_true_iff.mpr (.inl ?_)
    cases rel
    case equal => exact (Bool.and_eq_true_iff.mp h).1
    case unequal => exact (Bool.and_eq_true_iff.mp h).1
    all_goals cases h

/-- A condition that depends on a symbol is `n` when the symbol is. -/
theorem exprVal_eq_no (hconst : ∀ t, w (T.const t) = constCell t) {c : S} (hc : T.IsTri c)
    (hno : (w c).curr.tri = .no) {e : Expr S} (h : exprDependsSymbol T.toSymbols c e = true) :
    T.exprVal w e = .no := by
  have hstr : ∀ t, T.strVal w (T.const t) = triText t := fun t => by
    rw [strVal, if_neg, hconst]
    · rfl
    · rintro (htype | htype) <;> rw [T.type_const] at htype <;> cases htype
  have hcompare : ∀ t, compareStrings (T.strVal w c) (T.type c) (T.strVal w (T.const t))
      (T.type (T.const t)) = strcmp (triText .no) (triText t) := fun t => by
    have hstrc : T.strVal w c = triText .no := by rw [strVal, if_pos hc, hno]
    rw [hstr, hstrc, T.type_const, compareStrings_of_string]
    cases t <;> rfl
  induction e with
  | symbol s =>
    rw [exprDependsSymbol, decide_eq_true_iff] at h
    rw [h]
    exact hno
  | not e => cases h
  | junct t l r ihl ihr =>
    cases t
    · rw [exprVal, op_eq_no_iff]
      exact (Bool.or_eq_true_iff.mp h).imp ihl ihr
    · cases h
  | comp rel l r =>
    cases rel
    case equal =>
      simp only [exprDependsSymbol, Bool.and_eq_true, Bool.or_eq_true, decide_eq_true_iff] at h
      obtain ⟨rfl, rfl | rfl⟩ := h
      · rw [exprVal, hcompare]
        rfl
      · rw [exprVal, hcompare]
        rfl
    case unequal =>
      simp only [exprDependsSymbol, Bool.and_eq_true, decide_eq_true_iff] at h
      obtain ⟨rfl, rfl⟩ := h
      rw [exprVal, hcompare]
      rfl
    all_goals cases h

theorem Solves.eq_rule (h : T.Solves w user has) {s : S} (hs : T.type s ≠ none) :
    w s = T.rule w user has s := by
  refine h.rule s ?_
  rintro t rfl
  exact hs (T.type_const t)

omit [DecidableEq S] in
theorem visibilityVal_visible (s : S) (c : Cell S) :
    (T.visibilityVal w s c).visible = T.visibleVal w s := by
  rw [visibilityVal]
  by_cases hs : T.isChoiceValue s
  · rw [if_pos hs]
  · rw [if_neg hs]

theorem currCell_visible (s : S) : (T.currCell w user has s).visible = T.visibleVal w s := by
  rw [← visibilityVal_visible s ⟨true, has s, false, symbolEmpty, .no, .no, .no, .no⟩, currCell]
  split_ifs
  · rfl
  · rfl

theorem Solves.visible (h : T.Solves w user has) {s : S} (hs : T.type s ≠ none) :
    (w s).visible = T.visibleVal w s := by
  rw [h.eq_rule hs, Table.rule, if_neg hs, ← @currCell_visible _ T user _ has w s]
  have hchosen : (T.chosenCell w user has s).visible = (T.currCell w user has s).visible := by
    rw [chosenCell]
    split_ifs
    · rfl
    · rfl
  dsimp only
  split_ifs
  · exact hchosen
  · exact hchosen

theorem foldl_or_eq_no {α : Type*} {f : α → Tristate} {l : List α} (h : ∀ a ∈ l, f a = .no) :
    l.foldl (fun tri a => Tristate.or tri (f a)) .no = Tristate.no := by
  induction l with
  | nil => rfl
  | cons a l ih =>
    obtain ⟨ha, hl⟩ := List.forall_mem_cons.mp h
    rw [List.foldl_cons, ha]
    exact ih hl

/-- Nothing can be seen of the values of a choice that is `n`. -/
theorem Choices.visibleVal_eq_no (hchoices : T.Choices) (hconst : ∀ t, w (T.const t) = constCell t)
    {s v : S} (hv : T.choiceOf v = some s) (hno : (w s).curr.tri = .no) : T.visibleVal w v = .no := by
  have hprompts : T.promptsVal w v = .no := by
    refine foldl_or_eq_no fun cond hcond => ?_
    obtain ⟨e, rfl, he⟩ := hchoices.prompts hv hcond
    have hval : T.condVal w (some e) = .no :=
      exprVal_eq_no hconst (hchoices.isTri (hchoices.isChoice hv)) hno he
    rw [promptVal, hval, ite_self]
  rw [visibleVal, hprompts, noModPrompt]
  exact if_neg fun h => Tristate.noConfusion h.1

/-- What can be seen of the values of a choice while one of them is sought can be seen in the end. -/
theorem Solves.visible_value (hacyclic : T.Acyclic rank) (hchoices : T.Choices)
    (h : T.Solves w user has) {s v : S} (hs : T.isChoice s = true) (hv : v ∈ T.values s)
    (hyes : (T.currCell w user has s).curr.tri = .yes) :
    T.visibleVal (Function.update w s (T.currCell w user has s)) v = (w v).visible := by
  have hchoice := hchoices.mem_values.mpr hv
  have htri := hchoices.isTri hs
  have htype : T.type s ≠ none := by
    rcases htri with htype | htype <;> rw [htype] <;> exact Option.some_ne_none _
  rw [h.visible (hchoices.type hchoice)]
  set c := T.currCell w user has s with hc
  have hcell : w s = T.chosenVal (Function.update w s c) user has s c ∨
      w s = { T.chosenVal (Function.update w s c) user has s c with write := false } := by
    have hrule := h.eq_rule htype
    rw [Table.rule, if_neg htype, chosenCell, ← hc] at hrule
    dsimp only at hrule
    rw [if_pos (⟨hs, hyes⟩ : T.isChoice s = true ∧ c.curr.tri = .yes)] at hrule
    split_ifs at hrule
    · exact .inr hrule
    · exact .inl hrule
  have hcurr : (w s).curr = (T.chosenVal (Function.update w s c) user has s c).curr := by
    rcases hcell with hcell | hcell <;> rw [hcell]
  rw [Table.chosenVal] at hcurr
  have hself : Agree T (rank · < rank s) w w := Agree.of_eq hacyclic h.ne_mod fun _ => rfl
  by_cases hnone : ((user s).chosen.filter fun v => T.visibleVal (Function.update w s c) v ≠ .no).or
      (T.choiceDefaultVal (Function.update w s c) s) = none
  · rw [if_pos hnone] at hcurr
    obtain ⟨-, hdefault⟩ := Option.or_eq_none_iff.mp hnone
    obtain ⟨-, hfind⟩ := Option.or_eq_none_iff.mp hdefault
    have hleft : T.visibleVal (Function.update w s c) v = .no :=
      not_not.mp fun hne => List.find?_eq_none.mp hfind v hv (decide_eq_true hne)
    -- nothing can be seen of any value, whether the choice is `y` or `n`
    rw [hleft, hchoices.visibleVal_eq_no h.const hchoice (by rw [hcurr])]
  · rw [if_neg hnone] at hcurr
    have hyes' : (w s).curr.tri = .yes := by
      rw [hcurr]
      exact hyes
    have hagree := hself.update hacyclic hyes hyes' (by rw [hcurr])
    rw [hagree.visibleVal_value hacyclic hchoices hv, Function.update_eq_self]

end solution

end Table

/-! ### A small menu -/

/-- The symbols of a small menu: a number with a range, and a choice of two values. -/
inductive Small
  | const (t : Tristate)
  | one
  | nine
  | modules
  | size
  | choice
  | left
  | right
deriving DecidableEq

namespace Small

def name : Small → Text
  | const t => triText t
  | one => "1".toList
  | nine => "9".toList
  | modules => "MODULES".toList
  | size => "SIZE".toList
  | choice => []
  | left => "LEFT".toList
  | right => "RIGHT".toList

theorem name_injective : Function.Injective name := by
  intro s s' heq
  cases s <;> cases s' <;> first | rfl | cases heq | skip
  case const.const t t' => rw [triText_injective heq]
  all_goals
    rename_i t
    cases t <;> cases heq

def table : Table Small where
  type
    | modules | choice | left | right => some .boolean
    | size => some .int
    | _ => none
  name := name
  isConst
    | const _ | one | nine => true
    | _ => false
  const := const
  name_const _ := rfl
  isConst_const _ := rfl
  type_of_isConst {s} h := by cases s <;> first | rfl | cases h
  name_inj _ _ heq := name_injective heq
  prompts
    | modules | choice | size => [none]
    | left | right => [some (.symbol choice)]
    | _ => []
  defaults
    | size => [⟨none, .symbol one⟩]
    | choice => [⟨none, .symbol right⟩]
    | _ => []
  ranges
    | size => [⟨none, one, nine⟩]
    | _ => []
  dirDep _ := none
  revDep
    | choice | modules => some (.symbol (const .mod))
    | _ => none
  implied _ := none
  isChoice s := s = choice
  choiceOf
    | left | right => some choice
    | _ => none
  values
    | choice => [left, right]
    | _ => []
  modules := modules
  auto _ := false

def rank : Small → ℕ
  | size | choice | modules => 1
  | left | right => 2
  | _ => 0

theorem below_symbol {k : ℕ} {s : Small} (h : rank s < k) : Table.Below rank k (.symbol s) := by
  intro t ht
  rw [← of_decide_eq_true ht]
  exact h

theorem acyclic : table.Acyclic rank where
  prompts {s cond e} hcond he := by
    cases s <;> rcases hcond with _ | ⟨_, ⟨⟩⟩ <;> cases he <;> exact below_symbol (by decide)
  defaults {s p} hp := by
    cases s <;> rcases hp with _ | ⟨_, ⟨⟩⟩ <;> exact nofun
  default {s p} hp hs := by
    cases s <;> rcases hp with _ | ⟨_, ⟨⟩⟩
    · exact below_symbol (by decide)
    · cases hs
  ranges {s p} hp := by
    cases s <;> rcases hp with _ | ⟨_, ⟨⟩⟩
    exact ⟨nofun, by decide, by decide⟩
  dirDep _ he := by cases he
  revDep {s} e he := by
    cases s <;> cases he <;> exact below_symbol (by decide)
  implied _ he := by cases he
  choice {s c} hc := by cases s <;> cases hc <;> decide
  value {c v cond e t} hv hcond he ht hne := by
    cases c <;> rcases hv with _ | ⟨_, _ | ⟨_, ⟨⟩⟩⟩ <;> rcases hcond with _ | ⟨_, ⟨⟩⟩ <;> cases he <;>
      exact absurd (of_decide_eq_true ht).symm hne
  modules {s} h := by cases s <;> cases h
  choiceModules {s c} _ h := by cases s <;> cases h

theorem choices : table.Choices where
  mem_values {s c} := by cases s <;> cases c <;> simp [table]
  isTri {c} hc := by
    rw [show c = choice from of_decide_eq_true hc]
    exact .inl rfl
  isChoice {s c} hc := by cases s <;> cases hc <;> rfl
  not_value {c} hc := by
    rw [show c = choice from of_decide_eq_true hc]
    rfl
  prompts {s c cond} hc hcond := by
    cases s <;> cases hc <;> exact ⟨_, List.mem_singleton.mp hcond, rfl⟩
  defaults {c p} hc hp := by
    rw [show c = choice from of_decide_eq_true hc] at hp ⊢
    exact ⟨right, List.mem_cons_of_mem _ List.mem_cons_self, congrArg _ (List.mem_singleton.mp hp)⟩
  auto _ := rfl
  type {s c} hc := by cases s <;> cases hc <;> exact Option.some_ne_none _

theorem rank_lt (s : Small) : rank s < 3 := by
  cases s <;> simp [rank]

/-- The user has chosen a value and set a number that is out of range. -/
def user : Small → SymbolValue Small
  | choice => ⟨.no, [], some right⟩
  | size => ⟨.no, "12".toList, none⟩
  | _ => symbolEmpty

theorem mem_values_of_user (c : Small) : ∀ v ∈ (user c).chosen, v ∈ table.values c := by
  intro v hv
  cases c <;> cases hv
  exact List.mem_cons_of_mem _ List.mem_cons_self

end Small

/-- Where no symbol depends on itself there is exactly one solution. -/
theorem Table.existsUnique_solves [DecidableEq S] {T : Table S} {user : S → SymbolValue S} {has : S → Bool}
    {rank : S → ℕ} (hacyclic : T.Acyclic rank) (hchoices : T.Choices)
    (huser : ∀ c, ∀ v ∈ (user c).chosen, v ∈ T.values c) : ∃! w, T.Solves w user has :=
  ⟨_, solves_solve hacyclic hchoices huser, fun _ h =>
    h.unique hacyclic hchoices huser (solves_solve hacyclic hchoices huser)⟩

theorem Table.existsUnique_solves_small :
    ∃! w, Small.table.Solves w Small.user fun _ => true :=
  Table.existsUnique_solves Small.acyclic Small.choices Small.mem_values_of_user

end Dir842.Kconfig
