import Dir842.Kconfig.Table
import Dir842.Lib.Steady

/-!
# Calculating the values of symbols (`sym_calc_value`)

`sym_calc_value` marks a symbol as valid before it looks at the symbols in its conditions, each of
which is calculated at its first use. A choice has the visibility of all its values calculated, also
of one whose calculation has led to the choice.

Warnings and `SYMBOL_CHANGED` are left out, and so is `SYMBOL_NEED_SET_CHOICE_VALUES`, which only
`conf_set_all_new_symbols` sets.
-/

namespace Dir842.Kconfig

deriving instance DecidableEq for SymbolValue

variable {S : Type}

structure State (S : Type) where
  cell : S → Cell S
  modulesVal : Tristate

abbrev Calc (S : Type) := StateT (State S) Option

namespace Table
variable [DecidableEq S] (T : Table S) (user : S → SymbolValue S) (call : S → Calc S Unit)

def change (s : S) (f : Cell S → Cell S) : Calc S Unit :=
  modify fun σ => { σ with cell := Function.update σ.cell s (f (σ.cell s)) }

/-! ### Conditions -/

def symGetStringValue (s : S) : Calc S Text := do
  let σ ← get
  if T.IsTri s then
    match (σ.cell s).curr.tri with
    | .no => return triText .no
    | .mod =>
      call T.modules
      let σ ← get
      return if (σ.cell T.modules).curr.tri = .no then triText .no else triText .mod
    | .yes => return triText .yes
  else return (σ.cell s).curr.val

def exprCalcValue : Expr S → Calc S Tristate
  | .symbol s => do
    call s
    let σ ← get
    return (σ.cell s).curr.tri
  | .not e => do
    let tri ← exprCalcValue e
    return tri.not
  | .junct t l r => do
    let tri1 ← exprCalcValue l
    let tri2 ← exprCalcValue r
    return t.op tri1 tri2
  | .comp rel l r => do
    call l
    call r
    let str1 ← T.symGetStringValue call l
    let str2 ← T.symGetStringValue call r
    return .ofBool (rel.holds (compareStrings str1 (T.type l) str2 (T.type r)))

/-- A missing condition is `y`. -/
def condCalcValue (cond : Option (Expr S)) : Calc S Tristate :=
  cond.elim (pure .yes) (T.exprCalcValue call)

/-! ### Properties -/

def promptsCalcValue (s : S) : List (Option (Expr S)) → Tristate → Calc S Tristate
  | [], tri => return tri
  | cond :: conds, tri => do
    let vis ← T.condCalcValue call cond
    let σ ← get
    let vis := if T.type s = some .tristate ∧ vis = .mod ∧
      (T.choiceOf s).any fun c => (σ.cell c).curr.tri = .yes then .no else vis
    promptsCalcValue s conds (tri.or vis)

/-- `dir_dep`, `rev_dep` or `implied` -/
def depCalcValue (s : S) (tri : Tristate) (dep : Option (Expr S)) : Calc S Tristate := do
  let tri ← dep.elim (pure tri) (T.exprCalcValue call)
  let σ ← get
  return T.noMod s (σ.cell s).visible σ.modulesVal tri

def symCalcVisibility (s : S) : Calc S Unit := do
  let tri ← T.promptsCalcValue call s (T.prompts s) .no
  let σ ← get
  change s fun c => { c with visible := T.noModPrompt s σ.modulesVal tri }
  if T.isChoiceValue s then return ()
  let tri ← T.depCalcValue call s .yes (T.dirDep s)
  change s fun c => { c with dirDep := tri }
  let tri ← T.depCalcValue call s .no (T.revDep s)
  change s fun c => { c with revDep := tri }
  let σ ← get
  let tri ← T.depCalcValue call s .no (if (σ.cell s).dirDep = .no then none else T.implied s)
  change s fun c => { c with implied := tri }

def symGetDefaultProp : List (Default S) → Calc S (Option (Default S × Tristate))
  | [] => return none
  | p :: ps => do
    let tri ← T.condCalcValue call p.visible
    if tri ≠ .no then return some (p, tri) else symGetDefaultProp ps

def symGetRangeProp : List (Range S) → Calc S (Option (Range S))
  | [] => return none
  | p :: ps => do
    let tri ← T.condCalcValue call p.visible
    if tri ≠ .no then return some p else symGetRangeProp ps

/-! ### Ranges -/

def symGetRangeVal (s : S) (base : ℕ) : Calc S Int := do
  call s
  let σ ← get
  return strtoll (baseOf (T.type s) base) (σ.cell s).curr.val

def setVal (s : S) (val : Text) : Calc S Unit :=
  change s fun c => { c with curr := { c.curr with val } }

def symValidateRange (s : S) : Calc S Unit := do
  if T.type s = some .int ∨ T.type s = some .hex then
    let prop ← T.symGetRangeProp call (T.ranges s)
    match prop with
    | none => return ()
    | some p =>
      let base := baseOf (T.type s) 0
      let σ ← get
      let val := strtoll base (σ.cell s).curr.val
      let val2 ← T.symGetRangeVal call p.left base
      if val2 ≤ val then
        let val2 ← T.symGetRangeVal call p.right base
        if val ≤ val2 then return ()
        else setVal s (rangeText (T.type s) val2)
      else setVal s (rangeText (T.type s) val2)
  else return ()

/-! ### Choices -/

/-- The values' visibilities, with the flag that the user has set what can be seen. -/
def calcVisibilities : List S → Bool → Calc S Bool
  | [], flag => return flag
  | v :: vs, flag => do
    T.symCalcVisibility call v
    let σ ← get
    calcVisibilities vs (if (σ.cell v).visible ≠ .no then flag && (σ.cell v).hasValue else flag)

/-- The first visible default; one that is no symbol is a null pointer. -/
def visibleDefault : List (Default S) → Calc S (Option S)
  | [] => return none
  | p :: ps => do
    let tri ← T.condCalcValue call p.visible
    if tri = .no then visibleDefault ps
    else
      match propGetSymbol p.expr with
      | none => failure
      | some v =>
        let σ ← get
        if (σ.cell v).visible ≠ .no then return some v else visibleDefault ps

def symChoiceDefault (s : S) : Calc S (Option S) := do
  let def_sym ← T.visibleDefault call (T.defaults s)
  let σ ← get
  return def_sym.or ((T.values s).find? fun v => (σ.cell v).visible ≠ .no)

def symCalcChoice (s : S) : Calc S (Option S) := do
  let σ ← get
  let flag ← T.calcVisibilities call (T.values s) (σ.cell s).hasValue
  change s fun c => { c with hasValue := c.hasValue && flag }
  let σ ← get
  match (user s).chosen.filter fun v => (σ.cell v).visible ≠ .no with
  | some v => return some v
  | none =>
    let def_sym ← T.symChoiceDefault call s
    if def_sym = none then
      change s fun c => { c with curr := { c.curr with tri := .no } }
      return none
    else return def_sym

/-! ### Values -/

def defaultCalcValue (s : S) : Calc S Tristate := do
  let prop ← T.symGetDefaultProp call (T.defaults s)
  match prop with
  | none => return .no
  | some p =>
    let tri ← T.exprCalcValue call p.1.expr
    change s fun c => { c with write := c.write || tri.and p.2 ≠ .no }
    return tri.and p.2

/-- The value of a `bool` or a tristate that the user has not set. -/
def unsetCalcValue (s : S) : Calc S Tristate := do
  change s fun c => { c with write := c.write || c.revDep ≠ .no }
  if T.isChoice s then return .no
  else
    let tri ← T.defaultCalcValue call s
    change s fun c => { c with write := c.write || c.implied ≠ .no }
    let σ ← get
    return if (σ.cell s).implied ≠ .no then tri.or (σ.cell s).implied else tri

def newTriCalcValue (s : S) : Calc S Tristate := do
  let σ ← get
  if T.isChoiceValue s ∧ (σ.cell s).visible = .yes then
    return .ofBool ((T.choiceOf s).any fun choice => (σ.cell choice).curr.chosen = some s)
  else if (σ.cell s).visible ≠ .no ∧ (σ.cell s).hasValue then
    return ((user s).tri.and (σ.cell s).visible).or (σ.cell s).revDep
  else
    let tri ← T.unsetCalcValue call s
    let σ ← get
    return tri.or (σ.cell s).revDep

/-- The value of a `bool` or a tristate. -/
def triCalcValue (s : S) : Calc S Tristate := do
  let tri ← T.newTriCalcValue user call s
  let σ ← get
  return T.finishTri s (σ.cell s) σ.modulesVal tri

def defaultTextCalcValue (s : S) : Calc S Text := do
  let prop ← T.symGetDefaultProp call (T.defaults s)
  match prop.bind fun p => propGetSymbol p.1.expr with
  | none => return []
  | some ds =>
    change s fun c => { c with write := true }
    call ds
    let σ ← get
    return (σ.cell ds).curr.val

/-- The text of a symbol that is no `bool` or tristate. -/
def textCalcValue (s : S) : Calc S Text := do
  let σ ← get
  if (σ.cell s).visible ≠ .no ∧ (σ.cell s).hasValue then return (user s).val
  else T.defaultTextCalcValue call s

def calcCurr (s : S) : Calc S Unit := do
  if T.IsTri s then
    let tri ← T.triCalcValue user call s
    change s fun c => { c with curr := { symbolNo with tri } }
  else
    let val ← T.textCalcValue user call s
    change s fun c => { c with curr := { symbolEmpty with val } }

def calcChosen (s : S) : Calc S Unit := do
  let σ ← get
  if T.isChoice s ∧ (σ.cell s).curr.tri = .yes then
    let chosen ← T.symCalcChoice user call s
    change s fun c => { c with curr := { c.curr with chosen } }
  else return ()

def setModulesVal (s : S) (oldval : SymbolValue S) : Calc S Unit :=
  modify fun σ =>
    if oldval ≠ (σ.cell s).curr ∧ s = T.modules then { σ with modulesVal := (σ.cell s).curr.tri }
    else σ

/-- The values of a choice that is written are written. -/
def writeValues (s : S) : Calc S Unit :=
  modify fun σ => { σ with
    cell := fun v =>
      if T.isChoice s ∧ v ∈ T.values s ∧ (σ.cell s).write ∧ (σ.cell v).visible ≠ .no then
        { σ.cell v with write := true }
      else σ.cell v }

/-- The visibility and the value of a symbol -/
def calcNewval (s : S) : Calc S Unit := do
  change s fun c => { c with write := false }
  T.symCalcVisibility call s
  -- the value is a default for calls that come back to the symbol
  change s fun c => { c with
    write := c.write || c.visible ≠ .no
    curr := if T.IsTri s then symbolNo else symbolEmpty }
  T.calcCurr user call s
  T.calcChosen user call s
  T.symValidateRange call s

/-- `sym_calc_value` of a symbol that is not valid -/
def calcInvalid (s : S) : Calc S Unit := do
  let σ ← get
  change s fun c => { c with valid := true }
  if T.type s = none then
    change s fun c => { c with curr := ⟨.no, T.name s, none⟩ }
  else
    T.calcNewval user call s
    T.setModulesVal s (σ.cell s).curr
    T.writeValues s
    change s fun c => if T.auto s then { c with write := false } else c

/-- `sym_calc_value`, with `n` for the depth of the recursion. -/
def symCalcValue : ℕ → S → Calc S Unit
  | 0, s => do
    let σ ← get
    if (σ.cell s).valid then return () else failure
  | n + 1, s => do
    let σ ← get
    if (σ.cell s).valid then return () else T.calcInvalid user (symCalcValue n) s

/-- `sym_clear_all_valid`: `y`, `m` and `n` are not in the table of symbols. -/
def symClearAllValid (n : ℕ) : Calc S Unit := do
  modify fun σ => { σ with
    cell := fun s => { σ.cell s with valid := (T.constOf s).isSome && (σ.cell s).valid } }
  T.symCalcValue user n T.modules

end Table

end Dir842.Kconfig
