import Dir842.Kconfig.CalcSolution

/-!
# Settings and values

A front end sets what the user wants, has all values cleared, and asks for values in any order. What
it is told is the solution for the settings at the last clear, whatever it asked for before.
-/

namespace Dir842.Kconfig

structure Session (S : Type) where
  /-- `sym->def[S_DEF_USER]` -/
  user : S → SymbolValue S
  state : State S

namespace Table

variable {S : Type} [DecidableEq S] (T : Table S)

/-- The symbols as the parser leaves them. -/
def initial : State S :=
  ⟨fun s => (T.constOf s).elim ⟨false, false, false, symbolEmpty, .no, .no, .no, .no⟩ constCell, .no⟩

def setFlags (has : S → Bool) (σ : State S) : State S :=
  { σ with cell := fun s =>
      { σ.cell s with hasValue := if (T.constOf s).isSome then (σ.cell s).hasValue else has s } }

/-- What a front end does. -/
inductive Event (S : Type)
  | value (s : S)
  /-- The settings and `SYMBOL_DEF_USER` change, and all values are cleared. -/
  | clear (user : S → SymbolValue S) (has : S → Bool)

def runEvent (n : ℕ) (σ : Session S) : Event S → Option (Session S)
  | .value s => (T.symCalcValue σ.user n s σ.state).map fun r => { σ with state := r.2 }
  | .clear user has =>
    (T.symClearAllValid user n (T.setFlags has σ.state)).map fun r => ⟨user, r.2⟩

def runEvents (n : ℕ) (σ : Session S) (events : List (Event S)) : Option (Session S) :=
  events.foldlM (T.runEvent n) σ

/-- What the user chooses is a value of the choice. -/
def Settings (user : S → SymbolValue S) : Prop := ∀ c, ∀ v ∈ (user c).chosen, v ∈ T.values c

def Event.Ok : Event S → Prop
  | .value _ => True
  | .clear user _ => T.Settings user

/-- What holds of the symbols whichever settings their values are for. -/
structure Idle (σ : State S) : Prop where
  const : ∀ t, σ.cell (T.const t) = constCell t
  value : ∀ {s}, T.isChoiceValue s = true →
    (σ.cell s).dirDep = .no ∧ (σ.cell s).revDep = .no ∧ (σ.cell s).implied = .no
  unknown : ∀ {s}, (∀ t, s ≠ T.const t) → T.type s = none → (σ.cell s).curr.tri = .no ∧
    σ.cell s = ⟨(σ.cell s).valid, (σ.cell s).hasValue, false, (σ.cell s).curr, .no, .no, .no, .no⟩
  modulesVal : σ.modulesVal = (σ.cell T.modules).curr.tri

/-- The state has values of `w` only, `MODULES` among them. -/
structure Consistent (user : S → SymbolValue S) (has : S → Bool) (w : S → Cell S) (σ : State S) :
    Prop where
  solves : T.Solves w user has
  inv : T.Inv has w (fun _ => False) σ
  modules : (σ.cell T.modules).valid = true

/-- `SYMBOL_DEF_USER` of the symbols -/
def flags (σ : State S) (s : S) : Bool := (σ.cell s).hasValue

variable {T} {user : S → SymbolValue S} {has : S → Bool} {w : S → Cell S} {σ : State S} {rank : S → ℕ}
  {n : ℕ}

theorem constOf_eq_some {s : S} {t : Tristate} (h : T.constOf s = some t) : s = T.const t := by
  by_contra hne
  by_cases hconst : ∀ t, s ≠ T.const t
  · rw [constOf_eq_none hconst] at h
    cases h
  · rw [not_forall] at hconst
    obtain ⟨t', ht'⟩ := hconst
    rw [not_not.mp ht', constOf_const] at h
    rw [not_not.mp ht', Option.some.inj h] at hne
    exact hne rfl

theorem initial_const (t : Tristate) : T.initial.cell (T.const t) = constCell t := by
  show (T.constOf (T.const t)).elim _ constCell = _
  rw [constOf_const]
  rfl

theorem initial_cell {s : S} (hs : ∀ t, s ≠ T.const t) :
    T.initial.cell s = ⟨false, false, false, symbolEmpty, .no, .no, .no, .no⟩ := by
  show (T.constOf s).elim _ constCell = _
  rw [constOf_eq_none hs]
  rfl

/-- `MODULES` is `n` where it is not declared. -/
theorem idle_initial (hmodules : ∀ t, T.modules = T.const t → t = .no) (hchoices : T.Choices) :
    T.Idle T.initial := by
  refine ⟨initial_const, fun {s} hs => ?_, fun hs _ => ?_, ?_⟩
  · obtain ⟨c, hc⟩ := Option.isSome_iff_exists.mp hs
    have hne : ∀ t, s ≠ T.const t := fun t heq => hchoices.type hc (heq ▸ T.type_const t)
    rw [initial_cell hne]
    exact ⟨rfl, rfl, rfl⟩
  · rw [initial_cell hs]
    exact ⟨rfl, rfl⟩
  · by_cases hconst : ∀ t, T.modules ≠ T.const t
    · rw [initial_cell hconst]
      rfl
    · rw [not_forall] at hconst
      obtain ⟨t, ht⟩ := hconst
      rw [not_not] at ht
      rw [ht, initial_const, hmodules t ht]
      rfl

theorem Idle.setFlags (h : T.Idle σ) (has : S → Bool) : T.Idle (T.setFlags has σ) := by
  refine ⟨fun t => ?_, h.value, fun hs htype => ⟨(h.unknown hs htype).1, ?_⟩, h.modulesVal⟩
  · show ({ σ.cell (T.const t) with hasValue := if (T.constOf (T.const t)).isSome then _ else _ } : Cell S) = _
    rw [constOf_const]
    exact h.const t
  · show ({ σ.cell _ with hasValue := _ } : Cell S) = _
    rw [(h.unknown hs htype).2]
    rfl

/-- Where all values are cleared the state is consistent with any solution. -/
theorem Idle.clear (h : T.Idle σ) (hw : T.Solves w user (flags σ)) :
    T.Inv (flags σ) w (fun _ => False) { σ with
      cell := fun s => { σ.cell s with valid := (T.constOf s).isSome && (σ.cell s).valid } } := by
  have hvalid : ∀ {s}, ((T.constOf s).isSome && (σ.cell s).valid) = true → ∃ t, s = T.const t :=
    fun hs => by
      obtain ⟨t, ht⟩ := Option.isSome_iff_exists.mp (Bool.and_eq_true_iff.mp hs).1
      exact ⟨t, constOf_eq_some ht⟩
  have hconst : ∀ t, ((T.constOf (T.const t)).isSome && (σ.cell (T.const t)).valid) = true := fun t => by
    rw [constOf_const, h.const]
    rfl
  refine ⟨fun {s} _ hs => ?_, fun {s} hs => ⟨rfl, h.value, fun htype => ?_⟩, hconst, fun hs => hs.elim,
    fun _ => rfl, fun hs _ => ?_, fun _ => h.modulesVal⟩
  · obtain ⟨t, rfl⟩ := hvalid hs
    have hcell : ({ σ.cell (T.const t) with
        valid := (T.constOf (T.const t)).isSome && (σ.cell (T.const t)).valid } : Cell S) =
        w (T.const t) := by
      rw [hconst, hw.const, h.const]
      rfl
    show T.Settled w (T.const t) { σ.cell (T.const t) with valid := _ }
    rw [hcell]
    refine ⟨rfl, fun _ => rfl, fun _ hvisible => ?_⟩
    rw [hw.const] at hvisible
    exact absurd rfl hvisible
  · have hne : ∀ t, s ≠ T.const t := by
      rintro t rfl
      have hs : ((T.constOf (T.const t)).isSome && (σ.cell (T.const t)).valid) = false := hs
      rw [hconst] at hs
      cases hs
    refine ⟨(h.unknown hne htype).1, ?_⟩
    show ({ σ.cell s with valid := _ } : Cell S) = _
    rw [(h.unknown hne htype).2]
  · obtain ⟨t, ht⟩ := hvalid hs
    show σ.modulesVal = _
    rw [h.modulesVal, ht, hw.const, h.const]

theorem currCell_deps {s : S} (hs : T.isChoiceValue s = true) :
    (T.currCell w user has s).dirDep = .no ∧ (T.currCell w user has s).revDep = .no ∧
      (T.currCell w user has s).implied = .no := by
  have hcell : T.visibilityVal w s ⟨true, has s, false, symbolEmpty, .no, .no, .no, .no⟩ =
      ⟨true, has s, false, symbolEmpty, T.visibleVal w s, .no, .no, .no⟩ := by
    rw [visibilityVal]
    exact if_pos hs
  rw [currCell, visibleCell, hcell]
  split_ifs
  · exact ⟨rfl, rfl, rfl⟩
  · exact ⟨rfl, rfl, rfl⟩

theorem Solves.deps (hw : T.Solves w user has) (hchoices : T.Choices) {s : S}
    (hs : T.isChoiceValue s = true) :
    (w s).dirDep = .no ∧ (w s).revDep = .no ∧ (w s).implied = .no := by
  obtain ⟨c, hc⟩ := Option.isSome_iff_exists.mp hs
  have hnot : ¬(T.isChoice s = true ∧ (T.currCell w user has s).curr.tri = .yes) := fun h => by
    rw [hchoices.not_value h.1] at hc
    cases hc
  have hcell : T.chosenCell w user has s = T.currCell w user has s := by rw [chosenCell, if_neg hnot]
  rw [hw.eq_rule (hchoices.type hc), Table.rule, if_neg (hchoices.type hc), hcell, if_neg]
  · exact currCell_deps hs
  · rw [hchoices.auto hc]
    exact Bool.false_ne_true

theorem isChoiceValue_of_none (hchoices : T.Choices) {s : S} (hs : T.type s = none) :
    T.isChoiceValue s = false := by
  rcases hc : T.choiceOf s with _ | c
  · rw [isChoiceValue, hc]
    rfl
  · exact absurd hs (hchoices.type hc)

theorem Consistent.idle (hchoices : T.Choices) (h : T.Consistent user has w σ) : T.Idle σ := by
  have hsettled : ∀ {s}, (σ.cell s).valid = true → T.Settled w s (σ.cell s) := h.inv.settled id
  refine ⟨fun t => ?_, fun {s} hs => ?_, fun {s} hne htype => ?_, ?_⟩
  · have ht := hsettled (h.inv.const t)
    rw [ht.eq, ht.write (isChoiceValue_of_none hchoices (T.type_const t)), h.solves.const]
  · rcases hvalid : (σ.cell s).valid with _ | _
    · exact (h.inv.fresh hvalid).value hs
    · rw [(hsettled hvalid).eq]
      exact h.solves.deps hchoices hs
  · by_cases hvalid : (σ.cell s).valid = true
    case neg => exact (h.inv.fresh (Bool.eq_false_iff.mpr hvalid)).unknown htype
    · have hs := hsettled hvalid
      have hrule : w s = ⟨true, has s, false, ⟨.no, T.name s, none⟩, .no, .no, .no, .no⟩ := by
        rw [h.solves.rule s hne, rule, if_pos htype]
      have hcell : σ.cell s = w s := by
        rw [hs.eq, hs.write (isChoiceValue_of_none hchoices htype)]
      rw [hcell, hrule]
      exact ⟨rfl, rfl⟩
  · rw [h.inv.modulesVal h.modules id, (hsettled h.modules).curr]

/-! ### Runs -/

/-- A call of a front end -/
theorem Consistent.symCalcValue (hacyclic : T.Acyclic rank) (hchoices : T.Choices) (huser : T.Settings user)
    (h : T.Consistent user has w σ) {s : S} (hs : rank s < n) :
    ∃ σ', T.symCalcValue user n s σ = some ((), σ') ∧ T.Consistent user has w σ' ∧
      (σ'.cell s).valid = true ∧ ∀ t, (σ.cell t).valid = true → (σ'.cell t).valid = true := by
  obtain ⟨σ', hrun, hI, hstep, hvalid⟩ := (calls_symCalcValue hacyclic hchoices huser h.solves n).run hs
    (fun p hp => hp.elim) σ h.inv (.inl ⟨h.modules, id⟩)
  exact ⟨σ', hrun, ⟨h.solves, hI, hstep.valid h.modules⟩, hvalid, fun t => hstep.valid⟩

theorem Idle.symClearAllValid (hacyclic : T.Acyclic rank) (hchoices : T.Choices)
    (huser : T.Settings user) (h : T.Idle σ) (hw : T.Solves w user (flags σ)) (hn : rank T.modules < n) :
    ∃ σ', T.symClearAllValid user n σ = some ((), σ') ∧ T.Consistent user (flags σ) w σ' := by
  obtain ⟨σ', hrun, hI, -, hvalid⟩ := (calls_symCalcValue hacyclic hchoices huser hw n).run hn
    (fun p hp => hp.elim) _ (h.clear hw) (.inr le_rfl)
  exact ⟨σ', hrun, hw, hI, hvalid⟩

/-- Some settings are the ones that the values are for. -/
def Session.Ok (T : Table S) (σ : Session S) : Prop :=
  T.Settings σ.user ∧ ∃ has w, T.Consistent σ.user has w σ.state

theorem runEvent_ok (hacyclic : T.Acyclic rank) (hchoices : T.Choices) (hn : ∀ s, rank s < n)
    {σ : Session S} (h : Session.Ok T σ) {event : Event S} (hevent : event.Ok T) :
    ∃ σ', T.runEvent n σ event = some σ' ∧ Session.Ok T σ' := by
  obtain ⟨huser, has, w, hσ⟩ := h
  cases event with
  | value s =>
    obtain ⟨σ', hrun, hσ', -⟩ := hσ.symCalcValue hacyclic hchoices huser (hn s)
    refine ⟨⟨σ.user, σ'⟩, ?_, huser, has, w, hσ'⟩
    rw [runEvent, hrun]
    rfl
  | clear user has =>
    have hidle := (hσ.idle hchoices).setFlags has
    obtain ⟨σ', hrun, hσ'⟩ := hidle.symClearAllValid hacyclic hchoices hevent
      (solves_solve hacyclic hchoices hevent) (hn _)
    refine ⟨⟨user, σ'⟩, ?_, hevent, _, _, hσ'⟩
    rw [runEvent, hrun]
    rfl

theorem runEvents_ok (hacyclic : T.Acyclic rank) (hchoices : T.Choices) (hn : ∀ s, rank s < n)
    {σ : Session S} (h : Session.Ok T σ) {events : List (Event S)} (hevents : ∀ e ∈ events, e.Ok T) :
    ∃ σ', T.runEvents n σ events = some σ' ∧ Session.Ok T σ' := by
  induction events generalizing σ with
  | nil => exact ⟨σ, rfl, h⟩
  | cons event events ih =>
    obtain ⟨hevent, hevents⟩ := List.forall_mem_cons.mp hevents
    obtain ⟨σ', hrun, hσ'⟩ := runEvent_ok hacyclic hchoices hn h hevent
    obtain ⟨σ'', hruns, hσ''⟩ := ih hσ' hevents
    refine ⟨σ'', ?_, hσ''⟩
    show (T.runEvent n σ event).bind _ = _
    rw [hrun]
    exact hruns

theorem runEvents_append (σ : Session S) (events events' : List (Event S)) :
    T.runEvents n σ (events ++ events') =
      (T.runEvents n σ events).bind fun σ' => T.runEvents n σ' events' :=
  List.foldlM_append

theorem Idle.clear_run (hacyclic : T.Acyclic rank) (hchoices : T.Choices) (hn : ∀ s, rank s < n)
    (h : T.Idle σ) (old : S → SymbolValue S) (huser : T.Settings user) (has : S → Bool)
    (hw : T.Solves w user fun s => (T.constOf s).isNone && has s) :
    ∃ σ', T.runEvent n ⟨old, σ⟩ (.clear user has) = some ⟨user, σ'⟩ ∧
      T.Consistent user (fun s => (T.constOf s).isNone && has s) w σ' := by
  have hflags : flags (T.setFlags has σ) = fun s => (T.constOf s).isNone && has s := by
    funext s
    show (if (T.constOf s).isSome then (σ.cell s).hasValue else has s) = _
    rcases hs : T.constOf s with _ | t
    · rfl
    · rw [constOf_eq_some hs, h.const]
      rfl
  obtain ⟨σ', hrun, hσ'⟩ := (h.setFlags has).symClearAllValid hacyclic hchoices huser (hflags ▸ hw) (hn _)
  refine ⟨σ', ?_, hflags ▸ hσ'⟩
  rw [runEvent, hrun]
  rfl

theorem Consistent.values_run (hacyclic : T.Acyclic rank) (hchoices : T.Choices) (hn : ∀ s, rank s < n)
    (huser : T.Settings user) (h : T.Consistent user has w σ) (l : List S) :
    ∃ σ', T.runEvents n ⟨user, σ⟩ (l.map .value) = some ⟨user, σ'⟩ ∧ T.Consistent user has w σ' ∧
      (∀ t, (σ.cell t).valid = true → (σ'.cell t).valid = true) ∧ ∀ s ∈ l, (σ'.cell s).valid = true := by
  induction l generalizing σ with
  | nil => exact ⟨σ, rfl, h, fun _ => id, fun _ hs => absurd hs List.not_mem_nil⟩
  | cons s l ih =>
    obtain ⟨σ', hrun, hσ', hvalid, hkeep⟩ := h.symCalcValue hacyclic hchoices huser (hn s)
    obtain ⟨σ'', hruns, hσ'', hkeep', hvalid'⟩ := ih hσ'
    refine ⟨σ'', ?_, hσ'', fun t ht => hkeep' t (hkeep t ht), fun t ht => ?_⟩
    · show (T.runEvent n ⟨user, σ⟩ (.value s)).bind _ = _
      rw [runEvent, hrun]
      exact hruns
    · rcases List.mem_cons.mp ht with rfl | ht
      · exact hkeep' t hvalid
      · exact hvalid' t ht

/-- Whatever a front end has done, after the values are cleared every symbol it asks for, in whatever
order, has the value of the one solution. -/
theorem runEvents_settled (hacyclic : T.Acyclic rank) (hchoices : T.Choices) (hn : ∀ s, rank s < n)
    (hmodules : ∀ t, T.modules = T.const t → t = .no) {events : List (Event S)}
    (hevents : ∀ e ∈ events, e.Ok T) (user₀ : S → SymbolValue S) (huser₀ : T.Settings user₀)
    (has₀ : S → Bool) (huser : T.Settings user) (has : S → Bool)
    (hw : T.Solves w user fun s => (T.constOf s).isNone && has s) (l : List S) :
    ∃ σ, T.runEvents n ⟨user₀, T.initial⟩
        (.clear user₀ has₀ :: events ++ .clear user has :: l.map .value) = some σ ∧
      ∀ s ∈ l, (σ.state.cell s).valid = true ∧ T.Settled w s (σ.state.cell s) := by
  obtain ⟨σ₁, hrun₁, hσ₁⟩ := (idle_initial hmodules hchoices).clear_run hacyclic hchoices hn user₀ huser₀
    has₀ (solves_solve hacyclic hchoices huser₀)
  have hok : Session.Ok T ⟨user₀, σ₁⟩ := ⟨huser₀, _, _, hσ₁⟩
  obtain ⟨⟨user₂, σ₂⟩, hrun₂, -, _, _, hσ₂⟩ := runEvents_ok hacyclic hchoices hn hok hevents
  obtain ⟨σ₃, hrun₃, hσ₃⟩ := (hσ₂.idle hchoices).clear_run hacyclic hchoices hn user₂ huser has hw
  obtain ⟨σ₄, hrun₄, hσ₄, -, hvalid⟩ := hσ₃.values_run hacyclic hchoices hn huser l
  refine ⟨⟨user, σ₄⟩, ?_, fun s hs => ⟨hvalid s hs, hσ₄.inv.settled id (hvalid s hs)⟩⟩
  rw [List.cons_append]
  show (T.runEvent n _ _).bind _ = _
  rw [hrun₁]
  show T.runEvents n ⟨user₀, σ₁⟩ _ = _
  rw [runEvents_append, hrun₂]
  show (T.runEvent n ⟨user₂, σ₂⟩ _).bind _ = _
  rw [hrun₃]
  exact hrun₄

theorem runEvents_settled_small : ∃ σ,
    Small.table.runEvents 3 ⟨Small.user, Small.table.initial⟩
      (.clear Small.user (fun _ => false) :: [.value .size] ++
        .clear Small.user (fun _ => true) :: [Small.right, .size].map .value) = some σ ∧
    ∀ s ∈ [Small.right, .size], (σ.state.cell s).valid = true ∧
      Small.table.Settled (fun s => Small.table.solve Small.user
        (fun s => (Small.table.constOf s).isNone && true) (Small.rank s + 1) s) s (σ.state.cell s) :=
  runEvents_settled Small.acyclic Small.choices Small.rank_lt nofun
    (by
      rintro e he
      rw [List.mem_singleton.mp he]
      exact trivial)
    Small.user Small.mem_values_of_user _ Small.mem_values_of_user _
    (solves_solve Small.acyclic Small.choices Small.mem_values_of_user) _

end Table

end Dir842.Kconfig
