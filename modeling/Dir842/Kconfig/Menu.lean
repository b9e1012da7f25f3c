import Dir842.Kconfig.ExprTransform

/-!
# Finishing the menu tree (`menu_finalize`)

The parser leaves a tree of entries, each with the conditions written at it. `menu_finalize` gives
choices and their values the types that are missing, joins the conditions of an entry to those in it,
puts entries that depend on the one before them into a submenu of it, makes the entries of a choice
its values, and takes blocks without a prompt apart.

When it is called for an entry this has the conditions of those that it is in, but what is in it has
not. `half` is what such entries say, and a call turns it into what finished ones say.
-/

namespace Dir842.Kconfig
open Fuel

variable {S : Type*} [DecidableEq S]

/-! ### Conditions that may be missing -/

def exprAllocTwo (t : Junction) : Option (Expr S) → Option (Expr S) → Option (Expr S)
  | none, e2 => e2
  | e1, none => e1
  | some e1, some e2 => some (.junct t e1 e2)

/-- A missing condition is `y`. -/
def condValue {d : Symbols S} (v : Valuation d) (cond : Option (Expr S)) : Tristate :=
  cond.elim .yes (exprCalcValue v)

/-! ### Entries -/

structure Property (S : Type*) where
  /-- The symbol that a `select` or an `imply` is for. -/
  target : Option S
  visible : Option (Expr S)

/-- `struct menu` but for the links; `lineno` is where it is written, and `choice` what it is a value of
(`P_CHOICE`). -/
structure Entry (S : Type*) where
  lineno : ℕ
  sym : Option S
  choice : Option S
  /-- The condition of the prompt, if there is a prompt. -/
  prompt : Option (Option (Expr S))
  dep : Option (Expr S)
  props : List (Property S)

inductive Menu (S : Type*)
  | mk (entry : Entry S) (list : List (Menu S))

namespace Menu

def entry : Menu S → Entry S
  | mk e _ => e

def list : Menu S → List (Menu S)
  | mk _ l => l

mutual
/-- The entries in the order they are shown. -/
def preorder : Menu S → List (Entry S)
  | mk e l => e :: preorderList l

def preorderList : List (Menu S) → List (Entry S)
  | [] => []
  | m :: ms => preorder m ++ preorderList ms
end

end Menu

section propagate
variable (d : Symbols S) (modules : S) (isChoice : S → Bool)

/-- A condition with those of the enclosing entries. -/
def joinDep (basedep cond : Option (Expr S)) : Option (Expr S) :=
  (exprAllocTwo .and basedep (cond.map fun e => exprTransform d (rewriteM d modules e))).map
    (exprEliminateDups d)

/-- The condition of a property of `sym`. -/
def propDep (sym : Option S) (basedep cond : Option (Expr S)) : Option (Expr S) :=
  let dep := joinDep d modules basedep cond
  if sym.any fun s => d.type s ≠ some .tristate then dep.map (exprTransBool d) else dep

def propagateEntry (parentdep : Option (Expr S)) (e : Entry S) : Entry S :=
  let basedep := joinDep d modules parentdep e.dep
  { e with
    dep := basedep
    prompt := e.prompt.map (propDep d modules e.sym basedep)
    props := e.props.map fun p => { p with visible := propDep d modules e.sym basedep p.visible } }

/-- `parentdep`: what the entries in a block depend on. -/
def parentDep (e : Entry S) : Option (Expr S) :=
  match e.sym.filter isChoice with
  | some s => some (.symbol s)
  | none => e.prompt.getD e.dep

/-- The first loop of `menu_finalize` for `e`, over the entries in it. -/
def propagate (e : Entry S) (list : List (Menu S)) : List (Menu S) :=
  list.map fun m => .mk (propagateEntry d modules (parentDep isChoice e) m.entry) m.list

end propagate

/-! ### Symbols -/

/-- What `menu_finalize` writes in the symbols: their types, and `SYMBOL_CHOICEVAL` in those of
`choiceVals`. -/
structure Marks (S : Type*) where
  symbols : Symbols S
  choiceVals : List S

/-- A symbol that has a type keeps it. No entry is of a constant. -/
def menuSetType (d : Symbols S) (sym : S) (type : Option SymType) : Symbols S :=
  { d with
    type := if d.type sym = none ∧ d.isConst sym = false then Function.update d.type sym type else d.type
    type_of_isConst := fun {s} hs => by
      split_ifs with h
      · rw [Function.update_of_ne fun heq => by rw [heq, h.2] at hs; cases hs]
        exact d.type_of_isConst hs
      · exact d.type_of_isConst hs }

/-- A choice without a type gets that of its first value that has one, and values without a type get
that of the choice. -/
def choiceTypes (d : Symbols S) (choice : S) (list : List (Menu S)) : Symbols S :=
  list.foldl (fun d m => m.entry.sym.elim d fun s => menuSetType d s (d.type choice))
    (menuSetType d choice (list.findSome? fun m => m.entry.sym.bind d.type))

/-! ### Automatic submenus -/

section finalize
variable (d : Symbols S) (modules : S) (isChoice : S → Bool)

/-- Whether something is not `n`, in the form that `expr_eliminate_eq` can compare. -/
def transCompareNo (cond : Option (Expr S)) : Expr S :=
  exprEliminateDups d (exprTransform d
    (cond.elim (.not (.symbol (d.const .no))) (exprTransCompare d .no true)))

/-- An entry goes into the submenu of `sym` if its condition is about `sym` and depends on it, or has
all that the prompt of `sym` depends on, which is `basedep`. -/
def inSubmenu (basedep : Expr S) (sym : S) (menu : Entry S) : Bool :=
  match menu.prompt.getD menu.dep with
  | none => false
  | some dep =>
    exprContainsSymbol sym dep && (exprDependsSymbol d sym dep ||
      (exprEliminateEq d (transCompareNo d (some dep)) basedep).2 = .symbol (d.const .yes))

/-- An entry in the list of a choice becomes a value of it, if its symbol is not one already. One that
is not a tristate depends on a tristate choice being `y`. -/
def choiceValue (σ : Marks S) (parent e : Entry S) : Marks S × Entry S :=
  match parent.sym.filter isChoice, e.sym with
  | some choice, some s =>
    if s ∈ σ.choiceVals then (σ, e)
    else
      ({ σ with choiceVals := s :: σ.choiceVals },
        if σ.symbols.type choice = some .tristate ∧ σ.symbols.type s ≠ some .tristate then
          let basedep := some (.comp .equal choice (σ.symbols.const .yes))
          { e with
            choice := some choice
            dep := exprAllocTwo .and basedep e.dep
            prompt := e.prompt.map (exprAllocTwo .and basedep)
            props := e.props.map fun p => { p with visible := exprAllocTwo .and basedep p.visible } }
        else { e with choice := some choice })
  | _, _ => (σ, e)

mutual
def Menu.count : Menu S → ℕ
  | .mk _ l => countList l + 1

def Menu.countList : List (Menu S) → ℕ
  | [] => 0
  | m :: ms => count m + countList ms
end

omit [DecidableEq S] in
theorem Menu.countList_append (l l' : List (Menu S)) :
    countList (l ++ l') = countList l + countList l' := by
  induction l with
  | nil => exact (Nat.zero_add _).symm
  | cons m l ih => rw [List.cons_append, countList, countList, ih, Nat.add_assoc]

/-- The last loop of `menu_finalize`, in which a block without a prompt is followed by what was in
it. -/
def close (parent : Entry S) (σ : Marks S) : List (Menu S) → Marks S × List (Menu S)
  | [] => (σ, [])
  | .mk e l :: ms =>
    let p := choiceValue isChoice σ parent e
    if l ≠ [] ∧ e.prompt = none then
      let q := close parent p.1 (l ++ ms)
      (q.1, .mk p.2 [] :: q.2)
    else
      let q := close parent p.1 ms
      (q.1, .mk p.2 l :: q.2)
termination_by l => Menu.countList l
decreasing_by
  · rw [Menu.countList_append, Menu.countList, Menu.count]
    omega
  · rw [Menu.countList, Menu.count]
    omega

mutual
/-- `menu_finalize` of an entry with those behind it, of which it takes what goes into its submenu;
with `n` for the depth of the recursion. -/
def finalize : ℕ → Marks S → Menu S → List (Menu S) → Option (Marks S × Menu S × List (Menu S))
  | 0, _, _, _ => none
  | n + 1, σ, .mk e [], next =>
    match e.sym with
    | none => some (σ, .mk e [], next)
    | some sym =>
      (submenu n σ (transCompareNo σ.symbols e.prompt.join) sym next).map fun (σ, list, next) =>
        let p := close isChoice e σ list
        (p.1, .mk e p.2, next)
  | n + 1, σ, .mk e l, next =>
    let d := (e.sym.filter isChoice).elim σ.symbols fun s => choiceTypes σ.symbols s l
    (finalizeList n { σ with symbols := d } (propagate d modules isChoice e l)).map fun (σ, list) =>
      let p := close isChoice e σ list
      (p.1, .mk e p.2, next)

/-- Consecutive entries behind `sym`, as long as they go into its submenu. -/
def submenu : ℕ → Marks S → Expr S → S → List (Menu S) →
    Option (Marks S × List (Menu S) × List (Menu S))
  | 0, _, _, _, _ => none
  | _ + 1, σ, _, _, [] => some (σ, [], [])
  | n + 1, σ, basedep, sym, m :: ms =>
    if inSubmenu σ.symbols basedep sym m.entry then
      (finalize n σ m ms).bind fun (σ, m, ms) =>
        (submenu n σ basedep sym ms).map fun (σ, list, next) => (σ, m :: list, next)
    else some (σ, [], m :: ms)

def finalizeList : ℕ → Marks S → List (Menu S) → Option (Marks S × List (Menu S))
  | 0, _, _ => none
  | _ + 1, σ, [] => some (σ, [])
  | n + 1, σ, m :: ms =>
    (finalize n σ m ms).bind fun (σ, m, ms) =>
      (finalizeList n σ ms).map fun (σ, list) => (σ, m :: list)
end

end finalize

/-- `menu_finalize(&rootmenu)` -/
def menuFinalize (d : Symbols S) (modules : S) (isChoice : S → Bool) (n : ℕ) (root : Menu S) :
    Option (Marks S × Menu S) :=
  (finalize modules isChoice n ⟨d, []⟩ root []).map fun (σ, m, _) => (σ, m)

/-! ### Conditions and their values -/

/-- What a written condition says. -/
def own {d : Symbols S} (v : Valuation d) (modules : S) (cond : Option (Expr S)) : Tristate :=
  condValue v (cond.map (rewriteM d modules))

/-- The condition of a property that is not of a tristate may say `m` for `y`. -/
def Agrees (tristate : Bool) (a b : Tristate) : Prop :=
  a ≤ b ∧ (a = .no ↔ b = .no) ∧ (tristate = true → a = b)

/-- Whatever types symbols without one are given, no tristate is compared with a number; and negations
stand at symbols. -/
def Plain (d : Symbols S) (e : Expr S) : Prop := (∀ d', d.Grows d' → e.NumberFree d') ∧ e.Nnf

theorem plain_exprTransform {d : Symbols S} {e : Expr S} (h : ∀ d', d.Grows d' → e.NumberFree d') :
    Plain d (exprTransform d e) :=
  ⟨fun d' hd => numberFree_exprTransform (h d' hd), (normal_exprTransform e).nnf⟩

theorem plain_exprEliminateDups {d : Symbols S} {e : Expr S} (h : Plain d e) :
    Plain d (exprEliminateDups d e) := by
  refine exprEliminateDups_keep (P := Plain d) (fun _ => ⟨fun _ _ => trivial, trivial⟩)
    (fun rel s t => ⟨fun d' hd => ?_, trivial⟩) (fun t l r => ?_) h
  · rw [← hd.const]
    exact Expr.numberFree_comp_const rel s t
  · refine ⟨fun h => ⟨⟨fun d' hd => (h.1 d' hd).1, h.2.1⟩, fun d' hd => (h.1 d' hd).2, h.2.2⟩, fun h => ?_⟩
    exact ⟨fun d' hd => ⟨h.1.1 d' hd, h.2.1 d' hd⟩, h.1.2, h.2.2⟩

omit [DecidableEq S] in
theorem Plain.mono {d d' : Symbols S} {e : Expr S} (hd : d.Grows d') (h : Plain d e) : Plain d' e :=
  ⟨fun d'' hd' => h.1 d'' (hd.trans hd'), h.2⟩

omit [DecidableEq S] in
theorem Plain.and {d : Symbols S} {l r : Expr S} (hl : Plain d l) (hr : Plain d r) :
    Plain d (.junct .and l r) :=
  ⟨fun d' hd => ⟨hl.1 d' hd, hr.1 d' hd⟩, hl.2, hr.2⟩

omit [DecidableEq S] in
theorem condValue_exprAllocTwo {d : Symbols S} (v : Valuation d) (c c' : Option (Expr S)) :
    condValue v (exprAllocTwo .and c c') = (condValue v c).and (condValue v c') := by
  rcases c with _ | e <;> rcases c' with _ | e'
  · rfl
  · show _ = Tristate.and .yes (exprCalcValue v e')
    cases h : exprCalcValue v e' <;> exact h
  · show _ = Tristate.and (exprCalcValue v e) .yes
    cases h : exprCalcValue v e <;> exact h
  · rfl

section cond
variable {d d' : Symbols S} {modules : S} (v : Valuation d') {c c' pd cond : Option (Expr S)}

omit [DecidableEq S] in
theorem condValue_restrict (hd : d.Grows d') (c : Option (Expr S)) :
    condValue (v.restrict hd) c = condValue v c := by
  rcases c with _ | e
  · rfl
  · exact exprCalcValue_restrict hd v e

theorem own_restrict (hd : d.Grows d') (c : Option (Expr S)) :
    own (v.restrict hd) modules c = own v modules c := by
  rcases c with _ | e
  · rfl
  · show exprCalcValue (v.restrict hd) (rewriteM d modules e) = exprCalcValue v (rewriteM d' modules e)
    rw [rewriteM_of_grows hd, exprCalcValue_restrict]

omit [DecidableEq S] in
theorem exprAllocTwo_rule {P : Expr S → Prop} (hand : ∀ {l r}, P l → P r → P (.junct .and l r))
    (h : ∀ e ∈ c, P e) (h' : ∀ e ∈ c', P e) : ∀ e ∈ exprAllocTwo .and c c', P e := by
  rcases c with _ | e <;> rcases c' with _ | e'
  · exact h
  · exact h'
  · exact h
  · rintro _ ⟨⟩
    exact hand (h e rfl) (h' e' rfl)

omit [DecidableEq S] in
theorem condValue_map {v : Valuation d} {f : Expr S → Expr S}
    (hf : ∀ e ∈ c, exprCalcValue v (f e) = exprCalcValue v e) :
    condValue v (c.map f) = condValue v c := by
  rcases c with _ | e
  · rfl
  · exact hf e rfl

/-- The conditions written compare no tristate with a number, whatever types symbols without one are
given. -/
def Unnumbered (d : Symbols S) (cond : Option (Expr S)) : Prop :=
  ∀ d', d.Grows d' → ∀ e ∈ cond, e.NumberFree d'

theorem plain_written (h : Unnumbered d cond) :
    ∀ e ∈ cond.map (fun e => exprTransform d (rewriteM d modules e)), Plain d e := by
  rcases cond with _ | e
  · rintro _ ⟨⟩
  · rintro _ ⟨⟩
    exact plain_exprTransform fun d' hd => numberFree_rewriteM (h d' hd e rfl)

theorem plain_joinDep (hpd : ∀ e ∈ pd, Plain d e) (h : Unnumbered d cond) :
    ∀ e ∈ joinDep d modules pd cond, Plain d e := by
  intro e he
  obtain ⟨e', he', rfl⟩ := Option.mem_map.mp he
  exact plain_exprEliminateDups (exprAllocTwo_rule Plain.and hpd (plain_written h) e' he')

/-- A condition with those of the enclosing entries says what they say together. -/
theorem condValue_joinDep (hd : d.Grows d') (hpd : ∀ e ∈ pd, Plain d e) (h : Unnumbered d cond) :
    condValue v (joinDep d modules pd cond) = (condValue v pd).and (own v modules cond) := by
  have hplain := exprAllocTwo_rule Plain.and hpd (@plain_written _ _ d modules cond h)
  rw [← condValue_restrict v hd, ← condValue_restrict v hd, ← own_restrict v hd, joinDep,
    condValue_map fun e he => exprCalcValue_exprEliminateDups ((hplain e he).1 d (.refl d)) _,
    condValue_exprAllocTwo]
  congr 1
  rcases cond with _ | e
  · rfl
  · exact calc_exprTransform _ _

theorem propDep_agrees {sym : Option S} (hd : d.Grows d') (hpd : ∀ e ∈ pd, Plain d e)
    (h : Unnumbered d cond) :
    Agrees (sym.all fun s => d.type s = some .tristate) (condValue v (propDep d modules sym pd cond))
      ((condValue v pd).and (own v modules cond)) := by
  have hval := @condValue_joinDep _ _ d d' modules v pd cond hd hpd h
  have hplain := @plain_joinDep _ _ d modules pd cond hpd h
  have hany : (sym.any fun s => decide (d.type s ≠ some .tristate)) =
      !sym.all fun s => decide (d.type s = some .tristate) := by
    rcases sym with _ | s
    · rfl
    · exact decide_not
  rw [propDep, hany]
  rcases sym.all fun s => decide (d.type s = some .tristate)
  · rw [← hval]
    rcases hdep : joinDep d modules pd cond with _ | e
    · exact ⟨le_refl _, Iff.rfl, fun _ => rfl⟩
    · obtain ⟨hle, hno⟩ := exprTransBool_value (v.restrict hd) (hplain e hdep).2
      rw [exprCalcValue_restrict, exprCalcValue_restrict] at hle hno
      exact ⟨hle, hno, fun h => absurd h (by simp)⟩
  · rw [← hval]
    exact ⟨le_refl _, Iff.rfl, fun _ => rfl⟩

end cond

/-! ### What the entries say -/

/-- What an entry says where the symbols have their values. -/
structure Reading (S : Type*) where
  lineno : ℕ
  sym : Option S
  choice : Option S
  dep : Tristate
  prompt : Option Tristate
  /-- The properties, with the symbols they are for. -/
  props : List (Option S × Tristate)

section means
variable {d : Symbols S} (v : Valuation d) (modules : S) (isChoice : S → Bool)

/-- What the conditions at the entry say. -/
def Entry.read (e : Entry S) : Reading S where
  lineno := e.lineno
  sym := e.sym
  choice := e.choice
  dep := condValue v e.dep
  prompt := e.prompt.map (condValue v)
  props := e.props.map fun p => (p.target, condValue v p.visible)

/-- What an entry depends on inside a scope that says `inh`. -/
def depVal (inh : Tristate) (e : Entry S) : Tristate := inh.and (own v modules e.dep)

/-- What the conditions written at the entry say inside a scope that says `inh`. -/
def Entry.written (inh : Tristate) (e : Entry S) : Reading S where
  lineno := e.lineno
  sym := e.sym
  choice := e.choice
  dep := depVal v modules inh e
  prompt := e.prompt.map fun cond => (depVal v modules inh e).and (own v modules cond)
  props := e.props.map fun p => (p.target, (depVal v modules inh e).and (own v modules p.visible))

/-- What the scope of a block says: that the choice is on, or what the prompt depends on, or the
block. -/
def gate (inh : Tristate) (e : Entry S) : Tristate :=
  match e.sym.filter isChoice with
  | some s => v.tri s
  | none => (e.prompt.map fun cond => (depVal v modules inh e).and (own v modules cond)).getD
      (depVal v modules inh e)

mutual
/-- The entries in the order they are written, with what the scopes they are in say. -/
def withScope (inh : Tristate) : Menu S → List (Entry S × Tristate)
  | .mk e l => (e, inh) :: withScopeList (gate v modules isChoice inh e) l

def withScopeList (inh : Tristate) : List (Menu S) → List (Entry S × Tristate)
  | [] => []
  | m :: ms => withScope inh m ++ withScopeList inh ms
end

def writtenList (inh : Tristate) (l : List (Menu S)) : List (Reading S) :=
  (withScopeList v modules isChoice inh l).map fun p => p.1.written v modules p.2

def readList (l : List (Menu S)) : List (Reading S) := (Menu.preorderList l).map (Entry.read v)

/-- What entries say that have the conditions they are in, before what is in them has. -/
def half (l : List (Menu S)) : List (Reading S) :=
  l.flatMap fun m => m.entry.read v ::
    writtenList v modules isChoice (condValue v (parentDep isChoice m.entry)) m.list

/-- The written conditions compare no tristate with a number. -/
structure Entry.Free (d : Symbols S) (e : Entry S) : Prop where
  dep : ∀ c ∈ e.dep, c.NumberFree d
  prompt : ∀ cond ∈ e.prompt, ∀ c ∈ cond, c.NumberFree d
  props : ∀ p ∈ e.props, ∀ c ∈ p.visible, c.NumberFree d

mutual
/-- What the grammar gives: of the entries with a symbol only choices have others in them. And whatever
types symbols without one are given, no condition compares a tristate with a number. -/
def Parsed (d : Symbols S) : Menu S → Prop
  | .mk e l => (∀ d', d.Grows d' → e.Free d') ∧ (l = [] ∨ e.sym.all isChoice = true) ∧ ParsedList d l

def ParsedList (d : Symbols S) : List (Menu S) → Prop
  | [] => True
  | m :: ms => Parsed d m ∧ ParsedList d ms
end

end means

section relation
variable (isChoice : S → Bool) (d : Symbols S) {d' : Symbols S} (v : Valuation d')

/-- The guard of an entry of `s` that is a value of the choice `c`: that `c` is `y`, for a tristate
choice and an entry that is no tristate. The types that count are those it has when the choice is
closed: the ones of `d` or, without one, any that `menu_finalize` has given by then. -/
structure Guard (s c : S) (g : Tristate) : Prop where
  isChoice : isChoice c = true
  guard : g = .yes ∨ v.type c = some .tristate ∧ g = .ofBool (v.tri c = .yes)
  tristate : d.type s = some .tristate → g = .yes
  typed : d.type c = some .tristate → d.type s ≠ none → d.type s ≠ some .tristate →
    g = .ofBool (v.tri c = .yes)

/-- An entry is left as it is, or its symbol becomes the value of a choice. -/
inductive Chosen (vals vals' : List S) (r r' : Reading S) : Tristate → Prop
  | none (h : r'.choice = r.choice) : Chosen vals vals' r r' .yes
  | value {s c g} (sym : r.sym = some s) (not_mem : s ∉ vals) (mem : s ∈ vals')
      (choice : r'.choice = some c) (guard : Guard isChoice d v s c g) : Chosen vals vals' r r' g

/-- The conditions of `r'` are those of `r` under a guard. -/
structure Says (vals vals' : List S) (r r' : Reading S) : Prop where
  lineno : r'.lineno = r.lineno
  sym : r'.sym = r.sym
  conds : ∃ g, Chosen isChoice d v vals vals' r r' g ∧ r'.dep = g.and r.dep ∧
    Option.Rel (fun a b => Agrees (r.sym.all fun s => d.type s = some .tristate) b (g.and a))
      r.prompt r'.prompt ∧
    List.Forall₂ (fun p q => q.1 = p.1 ∧
      Agrees (r.sym.all fun s => d.type s = some .tristate) q.2 (g.and p.2)) r.props r'.props

end relation

theorem Tristate.yes_and (a : Tristate) : yes.and a = a := by cases a <;> rfl

theorem Tristate.and_assoc (a b c : Tristate) : (a.and b).and c = a.and (b.and c) :=
  @Std.Associative.assoc _ Junction.and.op _ a b c

namespace Agrees
variable {b b' : Bool} {x y z : Tristate}

theorem refl (b : Bool) (x : Tristate) : Agrees b x x := ⟨le_refl x, Iff.rfl, fun _ => rfl⟩

theorem trans (h : Agrees b x y) (h' : Agrees b y z) : Agrees b x z :=
  ⟨h.1.trans h'.1, h.2.1.trans h'.2.1, fun hb => (h.2.2 hb).trans (h'.2.2 hb)⟩

theorem mono (h : Agrees b x y) (hb : b' = true → b = true) : Agrees b' x y :=
  ⟨h.1, h.2.1, fun hb' => h.2.2 (hb hb')⟩

theorem guard (h : Agrees b x y) (g : Tristate) : Agrees b (g.and x) (g.and y) := by
  refine ⟨Junction.and.op_monotone g h.1, ?_, fun hb => by rw [h.2.2 hb]⟩
  have hx : g.and x = .no ↔ g = .no ∨ x = .no := @op_eq_no_iff .and g x
  have hy : g.and y = .no ↔ g = .no ∨ y = .no := @op_eq_no_iff .and g y
  rw [hx, hy, h.2.1]

end Agrees

section saying
variable {isChoice : S → Bool} {d d' : Symbols S} {v : Valuation d'} {vals vals' vals'' : List S}
  {r r' r'' : Reading S} {g g' : Tristate}

theorem optionRel_trans {α β γ : Type*} {R : α → β → Prop} {Q : β → γ → Prop} {T : α → γ → Prop}
    (hT : ∀ a b c, R a b → Q b c → T a c) {o : Option α} {o' : Option β} {o'' : Option γ}
    (h : Option.Rel R o o') (h' : Option.Rel Q o' o'') : Option.Rel T o o'' := by
  cases h <;> cases h'
  case some.some hab _ hbc => exact .some (hT _ _ _ hab hbc)
  case none.none => exact .none

theorem forall₂_trans {α β γ : Type*} {R : α → β → Prop} {Q : β → γ → Prop} {T : α → γ → Prop}
    (hT : ∀ a b c, R a b → Q b c → T a c) {l : List α} {l' : List β} {l'' : List γ}
    (h : List.Forall₂ R l l') (h' : List.Forall₂ Q l' l'') : List.Forall₂ T l l'' := by
  induction h generalizing l'' with
  | nil =>
    cases h'
    exact .nil
  | cons hab _ ih =>
    cases h' with
    | cons hbc h' => exact .cons (hT _ _ _ hab hbc) (ih h')

omit [DecidableEq S] in
theorem Chosen.mono (h : Chosen isChoice d v vals' vals'' r r' g) (hsub : vals ⊆ vals') {vals₃ : List S}
    (hsub' : vals'' ⊆ vals₃) : Chosen isChoice d v vals vals₃ r r' g := by
  cases h with
  | none h => exact .none h
  | value sym not_mem mem choice guard =>
    exact .value sym (fun h => not_mem (hsub h)) (hsub' mem) choice guard

omit [DecidableEq S] in
/-- A symbol becomes a value once, so that of two guards one is `y`. -/
theorem Chosen.trans (h : Chosen isChoice d v vals vals' r r' g)
    (h' : Chosen isChoice d v vals' vals'' r' r'' g') (hsym : r'.sym = r.sym) (hsub : vals ⊆ vals')
    (hsub' : vals' ⊆ vals'') : Chosen isChoice d v vals vals'' r r'' (g'.and g) := by
  cases h with
  | none h =>
    cases h' with
    | none h' => exact .none (h'.trans h)
    | value sym not_mem mem choice guard =>
      rw [show g'.and .yes = g' by cases g' <;> rfl]
      exact .value (hsym ▸ sym) (fun h => not_mem (hsub h)) mem choice guard
  | value sym not_mem mem choice guard =>
    cases h' with
    | none h' =>
      rw [Tristate.yes_and]
      exact .value sym not_mem (hsub' mem) (h'.trans choice) guard
    | value sym' not_mem' =>
      rw [hsym, sym] at sym'
      cases sym'
      exact absurd mem not_mem'

namespace Says
omit [DecidableEq S]

/-- What is said under a guard -/
theorem of_chosen (h : Chosen isChoice d v vals vals' r r' g) (hlineno : r'.lineno = r.lineno)
    (hsym : r'.sym = r.sym) (hdep : r'.dep = g.and r.dep) (hprompt : r'.prompt = r.prompt.map g.and)
    (hprops : r'.props = r.props.map fun p => (p.1, g.and p.2)) : Says isChoice d v vals vals' r r' := by
  refine ⟨hlineno, hsym, g, h, hdep, ?_, ?_⟩
  · rw [hprompt]
    rcases r.prompt with _ | c
    · exact .none
    · exact .some (Agrees.refl _ _)
  · rw [hprops, List.forall₂_map_right_iff, List.forall₂_same]
    exact fun p _ => ⟨rfl, Agrees.refl _ _⟩

theorem of_unguarded (h : Chosen isChoice d v vals vals' r r' .yes) (hlineno : r'.lineno = r.lineno)
    (hsym : r'.sym = r.sym) (hdep : r'.dep = r.dep) (hprompt : r'.prompt = r.prompt)
    (hprops : r'.props = r.props) : Says isChoice d v vals vals' r r' := by
  refine of_chosen h hlineno hsym (hdep.trans (Tristate.yes_and _).symm) ?_ ?_
  · rw [hprompt, funext Tristate.yes_and]
    exact (congrFun Option.map_id r.prompt).symm
  · rw [hprops]
    refine ((List.map_congr_left fun p _ => ?_).trans (List.map_id _)).symm
    exact congrArg (Prod.mk p.1) (Tristate.yes_and p.2)

theorem refl (r : Reading S) : Says isChoice d v vals vals' r r :=
  of_unguarded (.none rfl) rfl rfl rfl rfl rfl

theorem mono (h : Says isChoice d v vals' vals'' r r') (hsub : vals ⊆ vals') {vals₃ : List S}
    (hsub' : vals'' ⊆ vals₃) : Says isChoice d v vals vals₃ r r' := by
  obtain ⟨g, hg, hconds⟩ := h.conds
  exact ⟨h.lineno, h.sym, g, hg.mono hsub hsub', hconds⟩

theorem trans (h : Says isChoice d v vals vals' r r') (h' : Says isChoice d v vals' vals'' r' r'')
    (hsub : vals ⊆ vals') (hsub' : vals' ⊆ vals'') : Says isChoice d v vals vals'' r r'' := by
  obtain ⟨g, hg, hdep, hprompt, hprops⟩ := h.conds
  obtain ⟨g', hg', hdep', hprompt', hprops'⟩ := h'.conds
  rw [h.sym] at hprompt' hprops'
  refine ⟨h'.lineno.trans h.lineno, h'.sym.trans h.sym, g'.and g, hg.trans hg' h.sym hsub hsub', ?_, ?_, ?_⟩
  · rw [hdep', hdep, Tristate.and_assoc]
  · refine optionRel_trans (fun a b c hb hc => ?_) hprompt hprompt'
    rw [Tristate.and_assoc]
    exact hc.trans (hb.guard g')
  · refine forall₂_trans (fun p q t hq ht => ⟨ht.1.trans hq.1, ?_⟩) hprops hprops'
    rw [Tristate.and_assoc]
    exact ht.2.trans (hq.2.guard g')

end Says

end saying

/-! ### The conditions of the entries in a block -/

section propagated
variable {isChoice : S → Bool} {d k d' : Symbols S} {v : Valuation d'} {modules : S} {inh : Tristate}
  {pd : Option (Expr S)} {e : Entry S} {vals vals' : List S}

omit [DecidableEq S] in
theorem unnumbered_of_free (hd : d.Grows k) (h : ∀ d', d.Grows d' → e.Free d') :
    Unnumbered k e.dep ∧ (∀ cond ∈ e.prompt, Unnumbered k cond) ∧
      ∀ p ∈ e.props, Unnumbered k p.visible :=
  ⟨fun d' hk => (h d' (hd.trans hk)).dep, fun cond hcond d' hk => (h d' (hd.trans hk)).prompt cond hcond,
    fun p hp d' hk => (h d' (hd.trans hk)).props p hp⟩

/-- An entry that is given the conditions it is in says what was written, and what they say. -/
theorem written_propagateEntry (hd : d.Grows k) (hk : k.Grows d') (hpd : ∀ c ∈ pd, Plain k c)
    (hinh : condValue v pd = inh) (he : ∀ d', d.Grows d' → e.Free d') :
    Says isChoice d v vals vals' (e.written v modules inh) ((propagateEntry k modules pd e).read v) := by
  obtain ⟨hdepFree, hpromptFree, hpropsFree⟩ := unnumbered_of_free hd he
  have hdep : condValue v (joinDep k modules pd e.dep) = depVal v modules inh e := by
    rw [condValue_joinDep v hk hpd hdepFree, hinh]
    rfl
  have hplain := @plain_joinDep _ _ k modules pd e.dep hpd hdepFree
  have hagrees : ∀ cond, Unnumbered k cond →
      Agrees (e.sym.all fun s => d.type s = some .tristate)
        (condValue v (propDep k modules e.sym (joinDep k modules pd e.dep) cond))
        (Tristate.and .yes ((depVal v modules inh e).and (own v modules cond))) := by
    intro cond hcond
    rw [Tristate.yes_and, ← hdep]
    refine (propDep_agrees v hk hplain hcond).mono fun htri => ?_
    rw [Option.all_eq_true] at htri ⊢
    exact fun s hs => decide_eq_true (hd.type (of_decide_eq_true (htri s hs)))
  refine ⟨rfl, rfl, .yes, .none rfl, ?_, ?_, ?_⟩
  · rw [Tristate.yes_and]
    exact hdep
  · show Option.Rel _ (e.prompt.map _) ((e.prompt.map _).map _)
    rcases hprompt : e.prompt with _ | cond
    · exact .none
    · exact .some (hagrees cond (hpromptFree cond hprompt))
  · show List.Forall₂ _ (e.props.map _) ((e.props.map _).map _)
    rw [List.map_map, List.forall₂_map_right_iff, List.forall₂_map_left_iff, List.forall₂_same]
    exact fun p hp => ⟨rfl, hagrees p.visible (hpropsFree p hp)⟩

theorem parentDep_propagateEntry (hsym : e.sym.all isChoice = true) :
    parentDep isChoice (propagateEntry k modules pd e) =
      match e.sym.filter isChoice with
      | some s => some (.symbol s)
      | none => (e.prompt.map (joinDep k modules (joinDep k modules pd e.dep))).getD
          (joinDep k modules pd e.dep) := by
  rw [parentDep]
  rcases hs : e.sym with _ | s
  · have hnone : (propagateEntry k modules pd e).sym = none := hs
    rw [hnone]
    show (e.prompt.map (propDep k modules e.sym _)).getD _ = _
    rw [hs]
    rfl
  · rw [hs] at hsym
    have hsome : Option.filter isChoice (some s) = some s := Option.filter_some_pos hsym
    have hsome' : (propagateEntry k modules pd e).sym.filter isChoice = some s := by
      rw [← hsome, ← hs]
      rfl
    rw [hsome, hsome']

theorem plain_parentDep (hd : d.Grows k) (hpd : ∀ c ∈ pd, Plain k c) (he : ∀ d', d.Grows d' → e.Free d')
    (hsym : e.sym.all isChoice = true) :
    ∀ c ∈ parentDep isChoice (propagateEntry k modules pd e), Plain k c := by
  obtain ⟨hdepFree, hpromptFree, -⟩ := unnumbered_of_free hd he
  have hplain := @plain_joinDep _ _ k modules pd e.dep hpd hdepFree
  rw [parentDep_propagateEntry hsym]
  rcases e.sym.filter isChoice with _ | s
  · rcases hprompt : e.prompt with _ | cond
    · exact hplain
    · exact plain_joinDep hplain (hpromptFree cond hprompt)
  · rintro _ ⟨⟩
    exact ⟨fun _ _ => trivial, trivial⟩

/-- What the entries of a block are given is what its scope says. -/
theorem condValue_parentDep (hd : d.Grows k) (hk : k.Grows d') (hpd : ∀ c ∈ pd, Plain k c)
    (hinh : condValue v pd = inh) (he : ∀ d', d.Grows d' → e.Free d')
    (hsym : e.sym.all isChoice = true) :
    condValue v (parentDep isChoice (propagateEntry k modules pd e)) = gate v modules isChoice inh e := by
  obtain ⟨hdepFree, hpromptFree, -⟩ := unnumbered_of_free hd he
  have hplain := @plain_joinDep _ _ k modules pd e.dep hpd hdepFree
  have hdep : condValue v (joinDep k modules pd e.dep) = depVal v modules inh e := by
    rw [condValue_joinDep v hk hpd hdepFree, hinh]
    rfl
  rw [parentDep_propagateEntry hsym, gate]
  rcases e.sym.filter isChoice with _ | s
  · rcases hprompt : e.prompt with _ | cond
    · exact hdep
    · show condValue v (joinDep k modules (joinDep k modules pd e.dep) cond) = _
      rw [condValue_joinDep v hk hplain (hpromptFree cond hprompt), hdep]
      rfl
  · rfl

/-- What `menu_finalize` is called for: the conditions that the entries in it will be given are plain,
and they are as the parser has left them. -/
def Pending (isChoice : S → Bool) (d k : Symbols S) (m : Menu S) : Prop :=
  (m.list ≠ [] → ∀ c ∈ parentDep isChoice m.entry, Plain k c) ∧ ParsedList isChoice d m.list

omit [DecidableEq S] in
theorem Pending.mono {m : Menu S} (h : Pending isChoice d k m) (hk : k.Grows d') :
    Pending isChoice d d' m :=
  ⟨fun hne c hc => (h.1 hne c hc).mono hk, h.2⟩

theorem pending_propagate (hd : d.Grows k) (hpd : ∀ c ∈ parentDep isChoice e, Plain k c)
    {l : List (Menu S)} (hl : ParsedList isChoice d l) :
    ∀ m ∈ propagate k modules isChoice e l, Pending isChoice d k m := by
  induction l with
  | nil => exact nofun
  | cons m ms ih =>
    obtain ⟨entry, list⟩ := m
    obtain ⟨⟨hfree, hblock, hlist⟩, hms⟩ := hl
    refine List.forall_mem_cons.mpr ⟨⟨fun hne => ?_, hlist⟩, ih hms⟩
    exact plain_parentDep hd hpd hfree (hblock.resolve_left hne)

/-- The entries in `e` are given the conditions of `e`. -/
theorem half_propagate (hd : d.Grows k) (hk : k.Grows d') (hpd : ∀ c ∈ parentDep isChoice e, Plain k c)
    {l : List (Menu S)} (hl : ParsedList isChoice d l) :
    List.Forall₂ (Says isChoice d v vals vals')
      (writtenList v modules isChoice (condValue v (parentDep isChoice e)) l)
      (half v modules isChoice (propagate k modules isChoice e l)) := by
  induction l with
  | nil => exact .nil
  | cons m ms ih =>
    obtain ⟨entry, list⟩ := m
    obtain ⟨⟨hfree, hblock, hlist⟩, hms⟩ := hl
    show List.Forall₂ _ (List.map _ (_ :: withScopeList _ _ _ _ list ++ withScopeList _ _ _ _ ms))
      (_ :: writtenList v modules isChoice _ list ++ half v modules isChoice (propagate k modules isChoice e ms))
    rw [List.cons_append, List.map_cons, List.map_append]
    refine .cons (written_propagateEntry hd hk hpd rfl hfree) (List.rel_append ?_ (ih hms))
    rcases list with _ | ⟨m, list⟩
    · exact .nil
    · show List.Forall₂ _ _ (writtenList v modules isChoice
        (condValue v (parentDep isChoice (propagateEntry k modules _ entry))) (m :: list))
      rw [condValue_parentDep hd hk hpd rfl hfree (hblock.resolve_left (List.cons_ne_nil m list))]
      exact List.forall₂_same.mpr fun r _ => Says.refl r

end propagated

/-! ### Types -/

section types
variable {d k : Symbols S}

theorem grows_menuSetType (d : Symbols S) (sym : S) (type : Option SymType) :
    d.Grows (menuSetType d sym type) := by
  refine ⟨fun {s t} hs => ?_, rfl, rfl, rfl⟩
  show (if _ then _ else _ : S → Option SymType) s = some t
  split_ifs with h
  · rw [Function.update_of_ne fun heq => by rw [heq, h.1] at hs; cases hs]
    exact hs
  · exact hs

theorem grows_choiceTypes (d : Symbols S) (choice : S) (list : List (Menu S)) :
    d.Grows (choiceTypes d choice list) := by
  have hfoldl : ∀ k, d.Grows k → d.Grows (list.foldl (fun d m =>
      m.entry.sym.elim d fun s => menuSetType d s (d.type choice)) k) := by
    induction list with
    | nil => exact fun k h => h
    | cons m list ih =>
      refine fun k h => ih _ ?_
      show d.Grows (m.entry.sym.elim k fun s => menuSetType k s (k.type choice))
      rcases m.entry.sym with _ | s
      · exact h
      · exact h.trans (grows_menuSetType k s _)
  exact hfoldl _ (grows_menuSetType d choice _)

end types

/-! ### Every call keeps what the entries say -/

namespace Menu
omit [DecidableEq S]

theorem preorderList_append (l l' : List (Menu S)) :
    preorderList (l ++ l') = preorderList l ++ preorderList l' := by
  induction l with
  | nil => rfl
  | cons m l ih => rw [List.cons_append, preorderList, preorderList, ih, List.append_assoc]

theorem preorderList_cons (e : Entry S) (l ms : List (Menu S)) :
    preorderList (.mk e l :: ms) = e :: preorderList (l ++ ms) := by
  rw [preorderList, preorder, preorderList_append, List.cons_append]

end Menu

section kept
variable {d : Symbols S} {modules : S} {isChoice : S → Bool} {σ σ' σ'' : Marks S}

/-- The readings of entries, which need values of their symbols. -/
abbrev Readings (S : Type*) := ∀ d : Symbols S, Valuation d → List (Reading S)

/-- From `L` to `R` the entries stay the same in the same order, but for conditions they are given on
the way, and the marks grow. -/
structure Kept (isChoice : S → Bool) (d : Symbols S) (σ σ' : Marks S) (L R : Readings S) : Prop where
  symbols : σ.symbols.Grows σ'.symbols
  choiceVals : σ.choiceVals ⊆ σ'.choiceVals
  readings : ∀ (d' : Symbols S) (v : Valuation d'), σ'.symbols.Grows d' →
    List.Forall₂ (Says isChoice d v σ.choiceVals σ'.choiceVals) (L d' v) (R d' v)

namespace Kept
omit [DecidableEq S]
variable {L M R L' R' : Readings S}

theorem refl (σ : Marks S) (L : Readings S) : Kept isChoice d σ σ L L :=
  ⟨.refl _, List.Subset.refl _, fun _ _ _ => List.forall₂_same.mpr fun r _ => Says.refl r⟩

theorem trans (h : Kept isChoice d σ σ' L M) (h' : Kept isChoice d σ' σ'' M R) :
    Kept isChoice d σ σ'' L R :=
  ⟨h.symbols.trans h'.symbols, List.Subset.trans h.choiceVals h'.choiceVals, fun d' v hd =>
    forall₂_trans (fun _ _ _ hr hr' => hr.trans hr' h.choiceVals h'.choiceVals)
      (h.readings d' v (h'.symbols.trans hd)) (h'.readings d' v hd)⟩

/-- What is done to some of the entries and then to those behind them. -/
theorem append (h : Kept isChoice d σ σ' L R) (h' : Kept isChoice d σ' σ'' L' R') :
    Kept isChoice d σ σ'' (fun d v => L d v ++ L' d v) fun d v => R d v ++ R' d v :=
  ⟨h.symbols.trans h'.symbols, List.Subset.trans h.choiceVals h'.choiceVals, fun d' v hd =>
    List.rel_append
      ((h.readings d' v (h'.symbols.trans hd)).imp fun _ _ hr => hr.mono (List.Subset.refl _) h'.choiceVals)
      ((h'.readings d' v hd).imp fun _ _ hr => hr.mono h.choiceVals (List.Subset.refl _))⟩

end Kept

/-- A value of a choice says what it said, under the guard. -/
theorem kept_choiceValue (hd : d.Grows σ.symbols) (parent e : Entry S) :
    Kept isChoice d σ (choiceValue isChoice σ parent e).1 (fun _ v => [e.read v])
      fun _ v => [(choiceValue isChoice σ parent e).2.read v] := by
  rw [choiceValue]
  split
  case h_2 => exact Kept.refl σ _
  case h_1 choice s hchoice hs =>
    obtain ⟨-, hisChoice⟩ := Option.filter_eq_some_iff.mp hchoice
    split_ifs with hmem htype
    · exact Kept.refl σ _
    · refine ⟨.refl _, List.subset_cons_self _ _, fun d' v hk => .cons ?_ .nil⟩
      have hguard : Guard isChoice d v s choice (.ofBool (v.tri choice = .yes)) :=
        ⟨hisChoice, .inr ⟨v.type_of_eq_some (hk.type htype.1), rfl⟩,
          fun h => absurd (hd.type h) htype.2, fun _ _ _ => rfl⟩
      have hvalue : condValue v (some (.comp .equal choice (σ.symbols.const .yes))) =
          .ofBool (v.tri choice = .yes) := by
        rw [← hk.const]
        exact v.calc_equal_const (.inr (hk.type htype.1))
      have hcond : ∀ cond, condValue v (exprAllocTwo .and
          (some (.comp .equal choice (σ.symbols.const .yes))) cond) =
            (Tristate.ofBool (v.tri choice = .yes)).and (condValue v cond) := fun cond => by
        rw [condValue_exprAllocTwo, hvalue]
      refine .of_chosen (.value hs hmem List.mem_cons_self rfl hguard) rfl rfl (hcond e.dep) ?_ ?_
      · show (e.prompt.map _).map _ = (e.prompt.map _).map _
        rw [Option.map_map, Option.map_map]
        exact congrArg (e.prompt.map ·) (funext hcond)
      · show (e.props.map _).map _ = (e.props.map _).map _
        rw [List.map_map, List.map_map]
        exact List.map_congr_left fun p _ => congrArg _ (hcond p.visible)
    · refine ⟨.refl _, List.subset_cons_self _ _, fun d' v hk => .cons ?_ .nil⟩
      have hguard : Guard isChoice d v s choice .yes := by
        refine ⟨hisChoice, .inl rfl, fun _ => rfl, fun hc hne hs => absurd ⟨hd.type hc, ?_⟩ htype⟩
        obtain ⟨t, ht⟩ := Option.ne_none_iff_exists'.mp hne
        rw [hd.type ht]
        rwa [ht] at hs
      exact .of_unguarded (.value hs hmem List.mem_cons_self rfl hguard) rfl rfl rfl rfl rfl

omit [DecidableEq S] in
theorem done : True := trivial

omit [DecidableEq S] in
theorem reads_cons (v : Valuation d) (e : Entry S) (l ms : List (Menu S)) :
    readList v (.mk e l :: ms) = e.read v :: readList v (l ++ ms) := by
  rw [readList, Menu.preorderList_cons, List.map_cons, readList]

omit [DecidableEq S] in
theorem readList_append (v : Valuation d) (l ms : List (Menu S)) :
    readList v (l ++ ms) = readList v l ++ readList v ms := by
  rw [readList, Menu.preorderList_append, List.map_append, readList, readList]

/-- The last loop keeps what the entries say, but for the guards of the values of a choice. -/
theorem kept_close (hd : d.Grows σ.symbols) (parent : Entry S) (l : List (Menu S)) :
    Kept isChoice d σ (close isChoice parent σ l).1 (fun _ v => readList v l)
        (fun _ v => readList v (close isChoice parent σ l).2) ∧
      (Menu.preorderList (close isChoice parent σ l).2).length = (Menu.preorderList l).length := by
  induction σ, l using close.induct isChoice parent with
  | case1 σ =>
    rw [close]
    exact ⟨Kept.refl σ _, rfl⟩
  | case2 σ e l ms p h ih =>
    have he := @kept_choiceValue _ _ d isChoice σ hd parent e
    obtain ⟨hkept, hlength⟩ := ih (hd.trans he.symbols)
    rw [close, if_pos h]
    simp only [reads_cons, Menu.preorderList_cons, List.length_cons]
    exact ⟨he.append hkept, congrArg (· + 1) hlength⟩
  | case3 σ e l ms p h ih =>
    have he := @kept_choiceValue _ _ d isChoice σ hd parent e
    obtain ⟨hkept, hlength⟩ := ih (hd.trans he.symbols)
    rw [close, if_neg h]
    simp only [reads_cons, readList_append, Menu.preorderList_cons, Menu.preorderList_append,
      List.length_cons, List.length_append]
    exact ⟨he.append ((Kept.refl _ fun _ v => readList v l).append hkept), by rw [hlength]⟩

/-- A call for the entries `l` comes to the finished `list` and leaves `rest` to the caller. -/
structure Result (modules : S) (isChoice : S → Bool) (d : Symbols S) (σ σ' : Marks S)
    (l list rest : List (Menu S)) : Prop where
  kept : Kept isChoice d σ σ' (fun _ v => half v modules isChoice l)
    fun _ v => readList v list ++ half v modules isChoice rest
  subset : rest ⊆ l
  length : (Menu.preorderList (list ++ rest)).length = (Menu.preorderList l).length

/-- A call can be made for the entries. -/
def Ready (isChoice : S → Bool) (d : Symbols S) (σ : Marks S) (l : List (Menu S)) : Prop :=
  d.Grows σ.symbols ∧ ∀ m ∈ l, Pending isChoice d σ.symbols m

theorem half_cons (v : Valuation d) (e : Entry S) (l ms : List (Menu S)) :
    half v modules isChoice (.mk e l :: ms) =
      [e.read v] ++ (writtenList v modules isChoice (condValue v (parentDep isChoice e)) l ++
        half v modules isChoice ms) := by
  rw [half, List.flatMap_cons, List.cons_append, List.singleton_append]
  rfl

namespace Result
variable {l list list' rest rest' : List (Menu S)}

theorem none (σ : Marks S) (l : List (Menu S)) : Result modules isChoice d σ σ l [] l :=
  ⟨Kept.refl σ _, List.Subset.refl l, rfl⟩

theorem ready (h : Result modules isChoice d σ σ' l list rest) (hl : Ready isChoice d σ l) :
    Ready isChoice d σ' rest :=
  ⟨hl.1.trans h.kept.symbols, fun m hm => (hl.2 m (h.subset hm)).mono h.kept.symbols⟩

theorem trans (h : Result modules isChoice d σ σ' l list rest)
    (h' : Result modules isChoice d σ' σ'' rest list' rest') :
    Result modules isChoice d σ σ'' l (list ++ list') rest' := by
  refine ⟨?_, List.Subset.trans h'.subset h.subset, ?_⟩
  · simp only [readList_append, List.append_assoc]
    exact h.kept.trans ((Kept.refl σ' fun _ v => readList v list).append h'.kept)
  · rw [List.append_assoc, ← h.length]
    simp only [Menu.preorderList_append, List.length_append]
    rw [← List.length_append, ← Menu.preorderList_append, h'.length]

/-- What `menu_finalize` of `e` makes of the entries in it, it closes. -/
theorem close {e : Entry S} {l next : List (Menu S)} (hl : Ready isChoice d σ (.mk e l :: next))
    (hkept : Kept isChoice d σ σ'
      (fun _ v => writtenList v modules isChoice (condValue v (parentDep isChoice e)) l ++
        half v modules isChoice next)
      fun _ v => readList v list ++ half v modules isChoice rest)
    (hsubset : rest ⊆ next)
    (hlength : (Menu.preorderList (list ++ rest)).length = (Menu.preorderList (l ++ next)).length) :
    Result modules isChoice d σ (Kconfig.close isChoice e σ' list).1 (.mk e l :: next)
      [.mk e (Kconfig.close isChoice e σ' list).2] rest := by
  obtain ⟨hclose, hcloseLength⟩ := @kept_close _ _ d isChoice σ' (hl.1.trans hkept.symbols) e list
  refine ⟨?_, fun m hm => List.mem_cons_of_mem _ (hsubset hm), ?_⟩
  · simp only [half_cons, reads_cons, List.append_nil]
    exact (Kept.refl σ fun _ v => [e.read v]).append
      (hkept.trans (hclose.append (Kept.refl _ fun _ v => half v modules isChoice rest)))
  · rw [List.singleton_append, Menu.preorderList_cons, Menu.preorderList_cons, List.length_cons,
      List.length_cons, ← hlength]
    simp only [Menu.preorderList_append, List.length_append, hcloseLength]

end Result

/-- What a call of `menu_finalize` for `m` before `next` comes to. -/
def Finalizes (modules : S) (isChoice : S → Bool) (d : Symbols S) (σ : Marks S) (m : Menu S)
    (next : List (Menu S)) : Prop :=
  ∃ σ' m' rest, Gives (fun n => finalize modules isChoice n σ m next) (σ', m', rest) ∧
    Result modules isChoice d σ σ' (m :: next) [m'] rest ∧ rest ⊆ next

def Submenus (modules : S) (isChoice : S → Bool) (d : Symbols S) (σ : Marks S)
    (next : List (Menu S)) : Prop :=
  ∀ basedep sym, ∃ σ' list rest,
    Gives (fun n => submenu modules isChoice n σ basedep sym next) (σ', list, rest) ∧
      Result modules isChoice d σ σ' next list rest

def FinalizesList (modules : S) (isChoice : S → Bool) (d : Symbols S) (σ : Marks S)
    (l : List (Menu S)) : Prop :=
  ∃ σ' list, Gives (fun n => finalizeList modules isChoice n σ l) (σ', list) ∧
    Result modules isChoice d σ σ' l list []

/-- The types that are known when the entries in `e` are looked at. -/
theorem grows_typed (d : Symbols S) (isChoice : S → Bool) (e : Entry S) (l : List (Menu S)) :
    d.Grows ((e.sym.filter isChoice).elim d fun s => choiceTypes d s l) := by
  rcases e.sym.filter isChoice with _ | s
  · exact .refl d
  · exact grows_choiceTypes d s l

theorem length_propagate (d : Symbols S) (e : Entry S) (l : List (Menu S)) :
    (Menu.preorderList (propagate d modules isChoice e l)).length = (Menu.preorderList l).length := by
  induction l with
  | nil => rfl
  | cons m l ih =>
    obtain ⟨e', l'⟩ := m
    show (Menu.preorderList (.mk _ l' :: propagate d modules isChoice e l)).length = _
    rw [Menu.preorderList_cons, Menu.preorderList_cons, List.length_cons, List.length_cons,
      Menu.preorderList_append, Menu.preorderList_append, List.length_append, List.length_append, ih]

theorem finalizes_of {e : Entry S} {l next : List (Menu S)} (hl : Ready isChoice d σ (.mk e l :: next))
    (hsub : Submenus modules isChoice d σ next)
    (hlist : ∀ k : Symbols S, σ.symbols.Grows k →
      Ready isChoice d { σ with symbols := k } (propagate k modules isChoice e l) →
      FinalizesList modules isChoice d { σ with symbols := k } (propagate k modules isChoice e l)) :
    Finalizes modules isChoice d σ (.mk e l) next := by
  rcases l with _ | ⟨m, ms⟩
  · rcases hsym : e.sym with _ | sym
    · refine ⟨σ, .mk e [], next, Gives.of_succ (Gives.congr Gives.pure fun n => ?_), ?_⟩
      · rw [finalize, hsym]
      · refine ⟨⟨?_, List.subset_cons_self _ _, rfl⟩, List.Subset.refl next⟩
        simp only [half_cons, reads_cons]
        exact Kept.refl σ _
    · obtain ⟨σ', list, rest, hgives, hresult⟩ := hsub (transCompareNo σ.symbols e.prompt.join) sym
      have hcall := Gives.map (g := fun r : Marks S × List (Menu S) × List (Menu S) =>
        ((close isChoice e r.1 r.2.1).1, Menu.mk e (close isChoice e r.1 r.2.1).2, r.2.2)) hgives
      refine ⟨_, _, _, Gives.of_succ (hcall.congr fun n => ?_),
        Result.close hl hresult.kept hresult.subset hresult.length, hresult.subset⟩
      rw [finalize, hsym]
  · obtain ⟨hplain, hparsed⟩ := hl.2 _ List.mem_cons_self
    have hgrows := grows_typed σ.symbols isChoice e (m :: ms)
    set k := (e.sym.filter isChoice).elim σ.symbols fun s => choiceTypes σ.symbols s (m :: ms) with hk
    have hplain' := fun c hc => (hplain (List.cons_ne_nil m ms) c hc).mono hgrows
    have hd := hl.1.trans hgrows
    obtain ⟨σ', list, hgives, hresult⟩ := hlist k hgrows ⟨hd, pending_propagate hd hplain' hparsed⟩
    have hwritten : Kept isChoice d σ { σ with symbols := k }
        (fun _ v => writtenList v modules isChoice (condValue v (parentDep isChoice e)) (m :: ms))
        fun _ v => half v modules isChoice (propagate k modules isChoice e (m :: ms)) :=
      ⟨hgrows, List.Subset.refl _, fun d' v hd' => half_propagate hd hd' hplain' hparsed⟩
    have hkept := hwritten.trans hresult.kept
    simp only [half, List.flatMap_nil, List.append_nil] at hkept
    have hcall := Gives.map (g := fun r : Marks S × List (Menu S) =>
      ((close isChoice e r.1 r.2).1, Menu.mk e (close isChoice e r.1 r.2).2, next)) hgives
    refine ⟨_, _, _, Gives.of_succ (hcall.congr fun n => ?_),
      Result.close hl (hkept.append (Kept.refl σ' fun _ v => half v modules isChoice next))
        (List.Subset.refl next) ?_, List.Subset.refl next⟩
    · rw [finalize, hk]
      exact List.cons_ne_nil m ms
    · have hlength := hresult.length
      rw [List.append_nil, length_propagate] at hlength
      rw [Menu.preorderList_append, Menu.preorderList_append, List.length_append, List.length_append,
        hlength]

/-- Every call uses up an entry, so that there is an end; the induction is on their number. -/
theorem finalize_ends (i : ℕ) :
    (∀ σ (m : Menu S) next, (Menu.preorderList (m :: next)).length ≤ i →
        Ready isChoice d σ (m :: next) → Finalizes modules isChoice d σ m next) ∧
      (∀ σ (next : List (Menu S)), (Menu.preorderList next).length ≤ i →
        Ready isChoice d σ next → Submenus modules isChoice d σ next) ∧
      ∀ σ (l : List (Menu S)), (Menu.preorderList l).length ≤ i →
        Ready isChoice d σ l → FinalizesList modules isChoice d σ l := by
  have hlen : ∀ (m : Menu S) ms, (Menu.preorderList ms).length + 1 ≤ (Menu.preorderList (m :: ms)).length := by
    rintro ⟨e, l⟩ ms
    rw [Menu.preorderList_cons, Menu.preorderList_append, List.length_cons, List.length_append]
    omega
  induction i with
  | zero =>
    refine ⟨fun σ m next h => absurd ((hlen m next).trans h) (Nat.not_succ_le_zero _), ?_, ?_⟩
    · rintro σ (_ | ⟨m, ms⟩) h -
      · exact fun _ _ => ⟨σ, [], [], Gives.of_succ Gives.pure, Result.none σ []⟩
      · exact absurd ((hlen m ms).trans h) (Nat.not_succ_le_zero _)
    · rintro σ (_ | ⟨m, ms⟩) h -
      · exact ⟨σ, [], Gives.of_succ Gives.pure, Result.none σ []⟩
      · exact absurd ((hlen m ms).trans h) (Nat.not_succ_le_zero _)
  | succ i ih =>
    obtain ⟨-, ihsub, ihlist⟩ := ih
    have hfin : ∀ σ (m : Menu S) next, (Menu.preorderList (m :: next)).length ≤ i + 1 →
        Ready isChoice d σ (m :: next) → Finalizes modules isChoice d σ m next := by
      rintro σ ⟨e, l⟩ next h hl
      rw [Menu.preorderList_cons, Menu.preorderList_append, List.length_cons, List.length_append] at h
      refine finalizes_of hl (ihsub σ next (by omega)
        ⟨hl.1, fun m hm => hl.2 m (List.mem_cons_of_mem _ hm)⟩) fun k _ hk => ihlist _ _ ?_ hk
      rw [length_propagate]
      omega
    refine ⟨hfin, ?_, ?_⟩
    · rintro σ (_ | ⟨m, ms⟩) h hl basedep sym
      · exact ⟨σ, [], [], Gives.of_succ Gives.pure, Result.none σ []⟩
      · by_cases hin : inSubmenu σ.symbols basedep sym m.entry = true
        · obtain ⟨σ', m', rest, hgives, hresult, -⟩ := hfin σ m ms h hl
          have hrest := hlen m' rest
          rw [← List.singleton_append, hresult.length] at hrest
          obtain ⟨σ'', list, rest', hgives', hresult'⟩ :=
            ihsub σ' rest (by omega) (hresult.ready hl) basedep sym
          have hcall := Gives.bind (g := fun n (r : Marks S × Menu S × List (Menu S)) =>
            (submenu modules isChoice n r.1 basedep sym r.2.2).map fun q => (q.1, r.2.1 :: q.2.1, q.2.2))
            hgives hgives'.map
          refine ⟨σ'', m' :: list, rest', Gives.of_succ (hcall.congr fun n => ?_), hresult.trans hresult'⟩
          rw [submenu, if_pos hin]
        · refine ⟨σ, [], m :: ms, Gives.of_succ (Gives.congr Gives.pure fun n => ?_), Result.none σ _⟩
          rw [submenu, if_neg hin]
    · rintro σ (_ | ⟨m, ms⟩) h hl
      · exact ⟨σ, [], Gives.of_succ Gives.pure, Result.none σ []⟩
      · obtain ⟨σ', m', rest, hgives, hresult, -⟩ := hfin σ m ms h hl
        have hrest := hlen m' rest
        rw [← List.singleton_append, hresult.length] at hrest
        obtain ⟨σ'', list, hgives', hresult'⟩ := ihlist σ' rest (by omega) (hresult.ready hl)
        have hcall := Gives.bind (g := fun n (r : Marks S × Menu S × List (Menu S)) =>
          (finalizeList modules isChoice n r.1 r.2.2).map fun q => (q.1, r.2.1 :: q.2)) hgives hgives'.map
        exact ⟨σ'', m' :: list, Gives.of_succ (hcall.congr fun n => rfl), hresult.trans hresult'⟩

/-! ### The finished menu -/

end kept
/-! ### A choice without a type -/

/-- Of a choice and its values only the first value, `A`, has a type. -/
def flagValues (name : Text) : Option SymValue :=
  if name = "A".toList then some (.boolean true) else none

def flags : Symbols SymRef := Symbols.ofValues flagValues

def firstEntry : Entry SymRef := ⟨2, some ⟨false, "A".toList⟩, none, some none, none, []⟩

def secondEntry : Entry SymRef := ⟨3, some ⟨false, "B".toList⟩, none, some (some operandA), none, []⟩

def flagMenu : Menu SymRef :=
  .mk ⟨0, none, none, none, none, []⟩
    [.mk ⟨1, some ⟨false, "C".toList⟩, none, some none, none, []⟩
      [.mk firstEntry [], .mk secondEntry []]]

/-- The choice of `flagMenu` -/
def isFlagChoice (s : SymRef) : Bool := s = ⟨false, "C".toList⟩

theorem free_firstEntry (d : Symbols SymRef) : firstEntry.Free d := by
  refine ⟨nofun, ?_, nofun⟩
  rintro cond hcond c hc
  cases hcond
  cases hc

theorem free_secondEntry (d : Symbols SymRef) : secondEntry.Free d := by
  refine ⟨nofun, ?_, nofun⟩
  rintro cond hcond c hc
  cases hcond
  cases hc
  trivial

theorem parsed_flagMenu : ParsedList isFlagChoice flags flagMenu.list := by
  refine ⟨⟨fun d _ => ⟨nofun, ?_, nofun⟩, .inr (by decide), ?_⟩, trivial⟩
  · rintro cond hcond c hc
    cases hcond
    cases hc
  · exact ⟨⟨fun d _ => free_firstEntry d, .inl rfl, trivial⟩,
      ⟨fun d _ => free_secondEntry d, .inl rfl, trivial⟩, trivial⟩

section test
variable {d : Symbols S} (v : Valuation d)

theorem calc_transCompareNo {cond : Option (Expr S)} (h : ∀ e ∈ cond, e.NumberFree d) :
    exprCalcValue v (transCompareNo d cond) =
      exprCalcValue v (cond.elim (.not (.symbol (d.const .no))) (exprTransCompare d .no true)) := by
  have hfree : (cond.elim (.not (.symbol (d.const .no))) (exprTransCompare d .no true)).NumberFree d := by
    rcases cond with _ | e
    · trivial
    · exact numberFree_exprTransCompare (h e rfl)
  rw [transCompareNo, exprCalcValue_exprEliminateDups (numberFree_exprTransform hfree),
    calc_exprTransform]

/-- An entry that `menu_finalize` puts into the submenu of `sym` is visible only where `sym` is not
`n`, or where the prompt of `sym` can be seen: of its condition the negated parts must not be
`m`. The types are those of `k` when `sym` is reached, and of `d` when the entry is. -/
theorem inSubmenu_visible {k : Symbols S} (hk : k.Grows d) {parent menu : Entry S} {sym : S}
    (hsym : d.IsTri sym) (hparent : parent.Free k) (hmenu : menu.Free d)
    (hparentTri : ∀ e ∈ parent.prompt.join, e.TriSymbols k)
    (hmenuTri : ∀ e ∈ menu.prompt.getD menu.dep, e.TriSymbols d)
    (hcrisp : ∀ e ∈ menu.prompt.getD menu.dep, e.Crisp v)
    (h : inSubmenu d (transCompareNo k parent.prompt.join) sym menu = true)
    (hvisible : condValue v (menu.prompt.getD menu.dep) ≠ .no) :
    v.tri sym ≠ .no ∨ condValue v parent.prompt.join ≠ .no := by
  have hfree : ∀ e ∈ menu.prompt.getD menu.dep, e.NumberFree d := by
    rcases hprompt : menu.prompt with _ | cond
    · exact hmenu.dep
    · exact hmenu.prompt cond hprompt
  rw [inSubmenu] at h
  rcases hdep : menu.prompt.getD menu.dep with _ | dep
  · rw [hdep] at h
    cases h
  rw [hdep] at h hvisible hfree hmenuTri hcrisp
  obtain ⟨-, h⟩ := (Bool.and_eq_true _ _).mp h
  rcases (Bool.or_eq_true _ _).mp h with h | h
  · exact .inl (tri_ne_no_of_exprDependsSymbol v hsym h hvisible)
  right
  have hyes := of_decide_eq_true h
  rcases hbase : parent.prompt.join with _ | base
  · exact Tristate.noConfusion
  have hbaseFree : base.NumberFree k := by
    rcases hprompt : parent.prompt with _ | cond
    · rw [hprompt] at hbase
      cases hbase
    · rw [hprompt] at hbase
      exact hparent.prompt cond hprompt base hbase
  -- the condition of the entry is not `n`, so that what it is compared with is `y` on both sides
  have hmenuVal : exprCalcValue v (transCompareNo d (some dep)) = .yes := by
    rw [calc_transCompareNo v hfree]
    show exprCalcValue v (exprTransCompare d .no true dep) = .yes
    rw [(calc_exprTransCompare v (by decide) (hmenuTri dep rfl) (hcrisp dep rfl)).2]
    exact congrArg Tristate.ofBool (decide_eq_true hvisible)
  rw [hbase] at hyes
  obtain ⟨g, hg, hdep', hbase'⟩ := under_exprEliminateEq v (transCompareNo d (some dep))
    (transCompareNo k (some base))
  dsimp only at hdep' hbase'
  rw [hyes, v.calc_const] at hbase'
  have hle : exprCalcValue v (transCompareNo d (some dep)) ≤
      exprCalcValue v (transCompareNo k (some base)) := by
    rw [hdep', hbase']
    exact hg (Tristate.le_yes _)
  have hbaseVal : exprCalcValue (v.restrict hk) (exprTransCompare k .no true base) = .yes := by
    rw [hmenuVal, ← exprCalcValue_restrict hk,
      calc_transCompareNo (v.restrict hk) fun e he => by cases he; exact hbaseFree] at hle
    exact le_antisymm (Tristate.le_yes _) hle
  rcases (exprTransCompare_no (v.restrict hk) (hparentTri base hbase)).1 with ⟨-, hne⟩ | ⟨hno, -⟩
  · rw [exprCalcValue_restrict] at hne
    exact hne
  · rw [hbaseVal] at hno
    cases hno

theorem inSubmenu_visible_flags :
    inSubmenu flags (transCompareNo flags firstEntry.prompt.join) ⟨false, "A".toList⟩ secondEntry = true ∧
    ((Valuation.ofValues flagValues).tri ⟨false, "A".toList⟩ ≠ .no ∨
      condValue (Valuation.ofValues flagValues) firstEntry.prompt.join ≠ .no) := by
  have hin : inSubmenu flags (transCompareNo flags firstEntry.prompt.join) ⟨false, "A".toList⟩
      secondEntry = true := by decide
  refine ⟨hin, inSubmenu_visible (Valuation.ofValues flagValues) (.refl flags) (.inl rfl)
    (free_firstEntry _) (free_secondEntry _) nofun ?_ ?_ hin ?_⟩
  · rintro e he
    cases he
    exact .inl (.inl rfl)
  · rintro e he
    cases he
    trivial
  · exact Tristate.noConfusion

end test

end Dir842.Kconfig
