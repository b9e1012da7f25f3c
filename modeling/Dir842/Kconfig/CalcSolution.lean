import Dir842.Kconfig.CalcValue

/-!
# Calculated values are the solution

A cell is settled when its symbol is valid and its calculation is not under way. While calculations
are under way other symbols are settled one after another, and of the cells of the symbols under way
only the visibility and `SYMBOL_WRITE` of choice values change.
-/

namespace Dir842.Kconfig.Table

variable {S : Type} (T : Table S) (has : S → Bool) (w : S → Cell S)

/-- `SYMBOL_WRITE` of a choice value may be set though nothing is to be written: a choice that is not
`y` goes by old visibilities of its values. -/
structure Settled (s : S) (c : Cell S) : Prop where
  eq : c = { w s with write := c.write }
  write : T.isChoiceValue s = false → c.write = (w s).write
  value : T.isChoiceValue s = true → (w s).visible ≠ .no → c.write = true

/-- A cell of which nothing has been calculated since `sym_clear_all_valid`. -/
structure Fresh (s : S) (c : Cell S) : Prop where
  hasValue : c.hasValue = has s
  value : T.isChoiceValue s = true → c.dirDep = .no ∧ c.revDep = .no ∧ c.implied = .no
  unknown : T.type s = none → c.curr.tri = .no ∧
    c = ⟨c.valid, c.hasValue, false, c.curr, .no, .no, .no, .no⟩

/-- How the cell of a symbol changes whose calculation is under way. -/
structure Frame (s : S) (c c' : Cell S) : Prop where
  eq : c' = { c with visible := c'.visible, write := c'.write }
  same : T.isChoiceValue s = false → c' = c
  visible : c'.visible = c.visible ∨ c'.visible = (w s).visible
  write : c.write = true → c'.write = true

/-- The calculations of the symbols of `busy` are under way. -/
structure Inv (busy : S → Prop) (σ : State S) : Prop where
  settled : ∀ {s}, ¬busy s → (σ.cell s).valid = true → T.Settled w s (σ.cell s)
  fresh : ∀ {s}, (σ.cell s).valid = false → T.Fresh has s (σ.cell s)
  const : ∀ t, (σ.cell (T.const t)).valid = true
  under : ∀ {s}, busy s → (σ.cell s).valid = true
  hasValue : ∀ {s}, T.isChoice s = false → (σ.cell s).hasValue = has s
  modulesVal : (σ.cell T.modules).valid = true → ¬busy T.modules →
    σ.modulesVal = (w T.modules).curr.tri
  modulesOld : (σ.cell T.modules).valid = false → σ.modulesVal = (σ.cell T.modules).curr.tri

structure Step (busy : S → Prop) (σ σ' : State S) : Prop where
  frame : ∀ {s}, busy s → T.Frame w s (σ.cell s) (σ'.cell s)
  valid : ∀ {s}, (σ.cell s).valid = true → (σ'.cell s).valid = true
  visible : ∀ {s}, (σ.cell s).visible = (w s).visible → (σ'.cell s).visible = (w s).visible
  modulesVal : (σ.cell T.modules).valid = true → σ'.modulesVal = σ.modulesVal

/-- The value of `s` is the one of `u`. -/
def Known (u : S → Cell S) (s : S) (σ : State S) : Prop :=
  (σ.cell s).valid = true ∧ (σ.cell s).curr = (u s).curr

/-- `modules_val` can be used in calculating `s`, or has no part in it. -/
def Ready (rank : S → ℕ) (busy : S → Prop) (s : S) (σ : State S) : Prop :=
  (σ.cell T.modules).valid = true ∧ ¬busy T.modules ∨ rank s ≤ rank T.modules

variable {T has w} {busy : S → Prop} {σ σ' : State S} {s : S} {rank : S → ℕ}

/-! ### Steps -/

theorem Frame.refl (c : Cell S) : T.Frame w s c c := ⟨rfl, fun _ => rfl, .inl rfl, id⟩

theorem Frame.trans {c c' c'' : Cell S} (h : T.Frame w s c c') (h' : T.Frame w s c' c'') :
    T.Frame w s c c'' := by
  refine ⟨?_, fun hs => (h'.same hs).trans (h.same hs), ?_, fun hc => h'.write (h.write hc)⟩
  · rw [h'.eq, h.eq]
  · rcases h'.visible with h' | h'
    · rw [h']
      exact h.visible
    · exact .inr h'

theorem Frame.curr {c c' : Cell S} (h : T.Frame w s c c') : c'.curr = c.curr := by rw [h.eq]

theorem Frame.hasValue {c c' : Cell S} (h : T.Frame w s c c') : c'.hasValue = c.hasValue := by rw [h.eq]

theorem Frame.revDep {c c' : Cell S} (h : T.Frame w s c c') : c'.revDep = c.revDep := by rw [h.eq]

theorem Frame.implied {c c' : Cell S} (h : T.Frame w s c c') : c'.implied = c.implied := by rw [h.eq]

instance : Std.Refl (T.Step w busy) where
  refl _ := ⟨fun _ => Frame.refl _, id, id, fun _ => rfl⟩

instance : IsTrans (State S) (T.Step w busy) where
  trans _ _ _ h h' := ⟨fun hs => (h.frame hs).trans (h'.frame hs), fun hs => h'.valid (h.valid hs),
    fun hs => h'.visible (h.visible hs),
    fun hs => (h'.modulesVal (h.valid hs)).trans (h.modulesVal hs)⟩

theorem Settled.curr {c : Cell S} (h : T.Settled w s c) : c.curr = (w s).curr := by rw [h.eq]

theorem Known.step {u : S → Cell S} (hI : T.Inv has w busy σ) (hI' : T.Inv has w busy σ')
    (h : T.Step w busy σ σ') (hs : Known u s σ) : Known u s σ' := by
  refine ⟨h.valid hs.1, ?_⟩
  by_cases hbusy : busy s
  · rw [(h.frame hbusy).curr, hs.2]
  · rw [(hI'.settled hbusy (h.valid hs.1)).curr, ← (hI.settled hbusy hs.1).curr, hs.2]

theorem Ready.step (h : T.Step w busy σ σ') (hs : T.Ready rank busy s σ) : T.Ready rank busy s σ' :=
  hs.imp_left fun ⟨hvalid, hbusy⟩ => ⟨h.valid hvalid, hbusy⟩

/-! ### Conditions -/

/-- Programs that look at the symbols of `P` find the values of `u`. -/
structure Finds (T : Table S) (has : S → Bool) (w : S → Cell S) (busy : S → Prop)
    (call : S → Calc S Unit) (Pre : State S → Prop) (P : S → Prop) (u : S → Cell S) : Prop where
  call : ∀ {t}, P t → Steady (T.Inv has w busy) (T.Step w busy) Pre (call t) ()
    (fun σ => Pre σ ∧ Known u t σ)
  pre : ∀ {σ σ'}, T.Inv has w busy σ → T.Inv has w busy σ' → T.Step w busy σ σ' → Pre σ → Pre σ'
  modules : ∀ {t}, P t → T.type t = some .tristate → P T.modules
  ne_mod : ∀ {t}, P t → T.type t = some .boolean → (u t).curr.tri ≠ .mod

section finds
variable {call : S → Calc S Unit} {Pre : State S → Prop} {P : S → Prop} {u : S → Cell S} {e : Expr S}

theorem known_step {Q : S → Prop} (σ σ' : State S) (hI : T.Inv has w busy σ)
    (hI' : T.Inv has w busy σ') (h : T.Step w busy σ σ') (hQ : ∀ t, Q t → Known u t σ) :
    ∀ t, Q t → Known u t σ' :=
  fun t ht => (hQ t ht).step hI hI' h

theorem Finds.symGetStringValue (h : Finds T has w busy call Pre P u) (hs : P s) :
    Steady (T.Inv has w busy) (T.Step w busy) (fun σ => Pre σ ∧ Known u s σ)
      (T.symGetStringValue call s) (T.strVal u s) (fun σ => Pre σ ∧ Known u s σ) := by
  rw [Table.strVal]
  by_cases htri : T.IsTri s
  · rw [if_pos htri]
    rcases htype : (u s).curr.tri
    · refine Steady.get (y := pure (triText .no)) (fun σ _ hσ => ?_) Steady.pure
      rw [if_pos htri, hσ.2.2, htype]
    · have hmodules : P T.modules := by
        rcases htri with hbool | htri
        · exact absurd htype (h.ne_mod hs hbool)
        · exact h.modules hs htri
      refine Steady.get (y := do
        call T.modules
        let σ ← get
        return if (σ.cell T.modules).curr.tri = .no then triText .no else triText .mod)
        (fun σ _ hσ => ?_) ?_
      · rw [if_pos htri, hσ.2.2, htype]
      · refine ((h.call hmodules).frame fun _ _ => Known.step).bind ?_
        refine Steady.get (fun σ _ hσ => by rw [hσ.1.2.2]) (Steady.pure.post ?_)
        exact fun σ _ hσ => ⟨hσ.1.1, hσ.2⟩
    · refine Steady.get (y := pure (triText .yes)) (fun σ _ hσ => ?_) Steady.pure
      rw [if_pos htri, hσ.2.2, htype]
  · rw [if_neg htri]
    refine Steady.get (y := pure (u s).curr.val) (fun σ _ hσ => ?_) Steady.pure
    rw [if_neg htri, hσ.2.2]

variable [DecidableEq S]

theorem Finds.exprCalcValue (h : Finds T has w busy call Pre P u)
    (he : ∀ t, exprContainsSymbol t e = true → P t) :
    Steady (T.Inv has w busy) (T.Step w busy) Pre (T.exprCalcValue call e) (T.exprVal u e)
      (fun σ => Pre σ ∧ ∀ t, exprContainsSymbol t e = true → Known u t σ) := by
  induction e with
  | symbol s =>
    refine (h.call (he s (decide_eq_true rfl))).bind ?_
    refine Steady.get (y := pure (u s).curr.tri) (fun σ _ hσ => by rw [hσ.2.2])
      (Steady.pure.post ?_)
    rintro σ _ ⟨hpre, hknown⟩
    exact ⟨hpre, fun t ht => of_decide_eq_true ht ▸ hknown⟩
  | not e ih => exact (ih he).bind Steady.pure
  | junct t l r ihl ihr =>
    refine (ihl fun t ht => he t (Bool.or_eq_true_iff.mpr (.inl ht))).bind ?_
    refine ((ihr fun t ht => he t (Bool.or_eq_true_iff.mpr (.inr ht))).frame known_step).bind
      (Steady.pure.post ?_)
    rintro σ _ ⟨⟨hpre, hr⟩, hl⟩
    exact ⟨hpre, fun t ht => (Bool.or_eq_true_iff.mp ht).elim (hl t) (hr t)⟩
  | comp rel l r =>
    have hl := he l (Bool.or_eq_true_iff.mpr (.inl (decide_eq_true rfl)))
    have hr := he r (Bool.or_eq_true_iff.mpr (.inr (decide_eq_true rfl)))
    have hcallr := (h.call hr).frame (F := Known u l) fun _ _ => Known.step
    have hstrl := (h.symGetStringValue hl).frame (F := Known u r) fun _ _ => Known.step
    have hstrr := (h.symGetStringValue hr).frame (F := Known u l) fun _ _ => Known.step
    refine (h.call hl).bind (hcallr.bind ?_)
    refine (hstrl.pre fun _ _ h => ⟨⟨h.1.1, h.2⟩, h.1.2⟩).bind ?_
    refine (hstrr.pre fun _ _ h => ⟨⟨h.1.1, h.2⟩, h.1.2⟩).bind (Steady.pure.post ?_)
    rintro σ _ ⟨⟨hpre, hr⟩, hl⟩
    refine ⟨hpre, fun t ht => ?_⟩
    rcases Bool.or_eq_true_iff.mp ht with ht | ht
    · exact of_decide_eq_true ht ▸ hl
    · exact of_decide_eq_true ht ▸ hr

theorem Finds.condCalcValue (h : Finds T has w busy call Pre P u) {cond : Option (Expr S)}
    (he : ∀ e ∈ cond, ∀ t, exprContainsSymbol t e = true → P t) :
    Steady (T.Inv has w busy) (T.Step w busy) Pre (T.condCalcValue call cond) (T.condVal u cond)
      (fun σ => Pre σ ∧ ∀ e ∈ cond, ∀ t, exprContainsSymbol t e = true → Known u t σ) := by
  rcases cond with _ | e
  · exact Steady.pure.post fun _ _ hpre => ⟨hpre, fun e he => by cases he⟩
  · refine (h.exprCalcValue (he e rfl)).post fun _ _ hσ => ⟨hσ.1, ?_⟩
    rintro _ ⟨⟩
    exact hσ.2

/-- The prompts of a value of a choice have the choice calculated. -/
theorem Finds.promptsCalcValue (h : Finds T has w busy call Pre P u) (conds : List (Option (Expr S)))
    (hconds : ∀ cond ∈ conds, ∀ e ∈ cond, ∀ t, exprContainsSymbol t e = true → P t)
    (hchoice : ∀ c, T.choiceOf s = some c →
      ∀ cond ∈ conds, ∃ e ∈ cond, exprContainsSymbol c e = true) (tri : Tristate) :
    Steady (T.Inv has w busy) (T.Step w busy) Pre (T.promptsCalcValue call s conds tri)
      (conds.foldl (fun tri cond => tri.or (T.promptVal u s cond)) tri)
      (fun σ => Pre σ ∧ (conds ≠ [] → ∀ c, T.choiceOf s = some c → Known u c σ)) := by
  induction conds generalizing tri with
  | nil => exact Steady.pure.post fun _ _ hpre => ⟨hpre, fun h => absurd rfl h⟩
  | cons cond conds ih =>
    obtain ⟨hcond, hconds⟩ := List.forall_mem_cons.mp hconds
    have htail := (ih hconds (fun c hc cond hcond => hchoice c hc cond (List.mem_cons_of_mem _ hcond))
      (tri.or (T.promptVal u s cond))).frame
        (F := fun σ => ∀ c, T.choiceOf s = some c → Known u c σ) known_step
    have hhead : Steady (T.Inv has w busy) (T.Step w busy) Pre (T.condCalcValue call cond)
        (T.condVal u cond) (fun σ => Pre σ ∧ ∀ c, T.choiceOf s = some c → Known u c σ) := by
      refine (h.condCalcValue hcond).post fun σ _ hσ => ⟨hσ.1, fun c hc => ?_⟩
      obtain ⟨e, he, hcontains⟩ := hchoice c hc cond List.mem_cons_self
      exact hσ.2 e he c hcontains
    refine hhead.bind (Steady.get (fun σ _ hσ => ?_) (htail.post fun σ _ hσ => ⟨hσ.1.1, fun _ => hσ.2⟩))
    rw [promptVal]
    rcases hc : T.choiceOf s with _ | c
    · rfl
    · rw [Option.any_some, Option.any_some, (hσ.2 c hc).2]

theorem Finds.symGetDefaultProp (h : Finds T has w busy call Pre P u) (ps : List (Default S))
    (hps : ∀ p ∈ ps, ∀ e ∈ p.visible, ∀ t, exprContainsSymbol t e = true → P t) :
    Steady (T.Inv has w busy) (T.Step w busy) Pre (T.symGetDefaultProp call ps)
      (ps.findSome? fun p => if T.condVal u p.visible = .no then none
        else some (p, T.condVal u p.visible)) Pre := by
  induction ps with
  | nil => exact Steady.pure
  | cons p ps ih =>
    obtain ⟨hp, hps⟩ := List.forall_mem_cons.mp hps
    refine ((h.condCalcValue hp).post fun _ _ hσ => hσ.1).bind ?_
    rw [List.findSome?_cons]
    by_cases hno : T.condVal u p.visible = .no
    · rw [if_pos hno, if_neg (not_not.mpr hno)]
      exact ih hps
    · rw [if_neg hno, if_pos hno]
      exact Steady.pure

theorem Finds.symGetRangeProp (h : Finds T has w busy call Pre P u) (ps : List (Range S))
    (hps : ∀ p ∈ ps, ∀ e ∈ p.visible, ∀ t, exprContainsSymbol t e = true → P t) :
    Steady (T.Inv has w busy) (T.Step w busy) Pre (T.symGetRangeProp call ps)
      (ps.find? fun p => T.condVal u p.visible ≠ .no) Pre := by
  induction ps with
  | nil => exact Steady.pure
  | cons p ps ih =>
    obtain ⟨hp, hps⟩ := List.forall_mem_cons.mp hps
    refine ((h.condCalcValue hp).post fun _ _ hσ => hσ.1).bind ?_
    by_cases hno : T.condVal u p.visible = .no
    · rw [if_neg (not_not.mpr hno), List.find?_cons_of_neg (by simpa using hno)]
      exact ih hps
    · rw [if_pos hno, List.find?_cons_of_pos (by simpa using hno)]
      exact Steady.pure

omit [DecidableEq S] in
theorem Finds.symGetRangeVal (h : Finds T has w busy call Pre P u) (hs : P s) (base : ℕ) :
    Steady (T.Inv has w busy) (T.Step w busy) Pre (T.symGetRangeVal call s base)
      (T.rangeNumber u base s) Pre := by
  refine (h.call hs).bind ?_
  refine Steady.get (y := pure (T.rangeNumber u base s)) (fun σ _ hσ => ?_)
    (Steady.pure.post fun _ _ hσ => hσ.1)
  rw [hσ.2.2]
  rfl

end finds

/-! ### A calculation -/

/-- `busy`, when the calculation of `s` is under way too. -/
def also (busy : S → Prop) (s : S) : S → Prop := fun t => t = s ∨ busy t

/-- Calls for the symbols below `k` calculate them. -/
structure Calls (T : Table S) (has : S → Bool) (w : S → Cell S) (rank : S → ℕ)
    (call : S → Calc S Unit) (k : ℕ) : Prop where
  run : ∀ {busy : S → Prop} {t}, rank t < k → (∀ p, busy p → rank t < rank p) →
    Steady (T.Inv has w busy) (T.Step w busy) (T.Ready rank busy t) (call t) ()
      (fun σ => (σ.cell t).valid = true)
  valid : ∀ {t} {σ : State S}, (σ.cell t).valid = true → call t σ = some ((), σ)

/-- The cell of `s` is `c` but for what others may do to it. -/
def At (T : Table S) (w : S → Cell S) (rank : S → ℕ) (busy : S → Prop) (s : S) (c : Cell S)
    (σ : State S) : Prop :=
  T.Ready rank (also busy s) s σ ∧ T.Frame w s c (σ.cell s)

section own
variable {user : S → SymbolValue S} {call : S → Calc S Unit} {c : Cell S}

theorem Inv.known (hI : T.Inv has w busy σ) (hs : ¬busy s) (hvalid : (σ.cell s).valid = true) :
    Known w s σ := ⟨hvalid, (hI.settled hs hvalid).curr⟩

theorem Inv.modulesVal_of_ready (hI : T.Inv has w busy σ) (h : T.Ready rank busy s σ)
    (hs : rank T.modules < rank s) : σ.modulesVal = (w T.modules).curr.tri := by
  obtain ⟨hvalid, hbusy⟩ := h.resolve_right (not_le.mpr hs)
  exact hI.modulesVal hvalid hbusy

variable [DecidableEq S]

/-- Values of choices change as if they were under way. -/
theorem Inv.frame (hchoices : T.Choices) (hI : T.Inv has w busy σ)
    (hframe : ∀ v, T.Frame w v (σ.cell v) (σ'.cell v)) (hmodules : σ'.modulesVal = σ.modulesVal) :
    T.Inv has w busy σ' ∧ T.Step w busy σ σ' := by
  have hvalid : ∀ v, (σ'.cell v).valid = (σ.cell v).valid := fun v => by rw [(hframe v).eq]
  have hhas : ∀ v, (σ'.cell v).hasValue = (σ.cell v).hasValue := fun v => by rw [(hframe v).eq]
  refine ⟨⟨fun {v} hv h => ?_, fun {v} h => ?_, fun t => ?_, fun {v} hv => ?_, fun {v} hv => ?_,
    fun h hbusy => ?_, fun h => ?_⟩, ⟨fun _ => hframe _, fun h => ?_, fun {v} h => ?_, fun _ => hmodules⟩⟩
  · rw [hvalid] at h
    obtain ⟨heq, hwrite, hvalue⟩ := hI.settled hv h
    refine ⟨?_, fun hv => ?_, fun hv hvisible => (hframe v).write (hvalue hv hvisible)⟩
    · rw [(hframe v).eq]
      rcases (hframe v).visible with h | h
      · rw [h, heq]
      · rw [h, heq]
    · rw [(hframe v).same hv, hwrite hv]
  · rw [hvalid] at h
    obtain ⟨hhasValue, hvalue, hunknown⟩ := hI.fresh h
    refine ⟨by rw [hhas, hhasValue], fun hv => ?_, fun hv => ?_⟩
    · rw [(hframe v).eq]
      exact hvalue hv
    · have hnot : T.isChoiceValue v = false := by
        rcases hc : T.choiceOf v with _ | c
        · rw [isChoiceValue, hc]
          rfl
        · exact absurd hv (hchoices.type hc)
      rw [(hframe v).same hnot]
      exact hunknown hv
  · rw [hvalid]
    exact hI.const t
  · rw [hvalid]
    exact hI.under hv
  · rw [hhas]
    exact hI.hasValue hv
  · rw [hvalid] at h
    rw [hmodules]
    exact hI.modulesVal h hbusy
  · rw [hvalid] at h
    rw [hmodules, (hframe _).curr]
    exact hI.modulesOld h
  · rwa [hvalid]
  · exact (hframe v).visible.elim (fun heq => heq.trans h) id

theorem Calls.finds (hacyclic : T.Acyclic rank) (hne : ∀ {t}, T.type t = some .boolean → (w t).curr.tri ≠ .mod)
    (hcall : Calls T has w rank call (rank s)) (hbusy : ∀ p, busy p → rank s < rank p) :
    Finds T has w (also busy s) call (T.Ready rank (also busy s) s) (rank · < rank s) w where
  call {t} ht := by
    have hlt : ∀ p, also busy s p → rank t < rank p := by
      rintro p (rfl | hp)
      · exact ht
      · exact ht.trans (hbusy p hp)
    have hrun := (hcall.run ht hlt).frame (F := T.Ready rank (also busy s) s) fun _ _ _ _ => Ready.step
    refine (hrun.pre fun σ _ hσ => ⟨hσ.imp_right fun hle => ht.le.trans hle, hσ⟩).post ?_
    exact fun σ hI hσ => ⟨hσ.2, hI.known (fun h => lt_irrefl _ (hlt t h)) hσ.1⟩
  pre _ _ := Ready.step
  modules ht htype := (hacyclic.modules htype).trans ht
  ne_mod _ := hne

/-- The values of the choice `s` see it as `c`. -/
theorem Calls.finds_update (hacyclic : T.Acyclic rank)
    (hne : ∀ {t}, T.type t = some .boolean → (w t).curr.tri ≠ .mod)
    (hcall : Calls T has w rank call (rank s)) (hbusy : ∀ p, busy p → rank s < rank p)
    (hyes : c.curr.tri = .yes) :
    Finds T has w (also busy s) call
      (fun σ => T.Ready rank (also busy s) s σ ∧ Known (Function.update w s c) s σ)
      (fun t => t = s ∨ rank t < rank s) (Function.update w s c) where
  call {t} ht := by
    rcases ht with rfl | ht
    · rintro σ hI ⟨hready, hknown⟩
      exact ⟨σ, hcall.valid hknown.1, hI, refl_of _ σ, ⟨hready, hknown⟩, hknown⟩
    · have hrun := (((hcall.finds hacyclic hne hbusy).call ht).frame
        (F := Known (Function.update w s c) s) fun _ _ => Known.step)
      refine hrun.post fun σ _ hσ => ⟨⟨hσ.1.1, hσ.2⟩, hσ.1.2.1, ?_⟩
      rw [Function.update_of_ne fun heq : t = s => lt_irrefl _ (heq ▸ ht)]
      exact hσ.1.2.2
  pre hI hI' h hσ := ⟨hσ.1.step h, hσ.2.step hI hI' h⟩
  modules ht htype := by
    rcases ht with rfl | ht
    · exact .inr (hacyclic.modules htype)
    · exact .inr ((hacyclic.modules htype).trans ht)
  ne_mod {t} ht htype := by
    rcases ht with rfl | ht
    · rw [Function.update_self, hyes]
      exact Tristate.noConfusion
    · rw [Function.update_of_ne fun heq : t = s => lt_irrefl _ (heq ▸ ht)]
      exact hne htype

/-- A change of the cell of a symbol under way -/
theorem Inv.change (hI : T.Inv has w (also busy s) σ) {c : Cell S} (hvalid : c.valid = true)
    (hhas : T.isChoice s = false → c.hasValue = (σ.cell s).hasValue) :
    T.Inv has w (also busy s) { σ with cell := Function.update σ.cell s c } := by
  have hother : ∀ {t}, t ≠ s → Function.update σ.cell s c t = σ.cell t := fun h =>
    Function.update_of_ne h c σ.cell
  have hself : Function.update σ.cell s c s = c := Function.update_self s c σ.cell
  have hne : ∀ {t}, (Function.update σ.cell s c t).valid = false → t ≠ s := by
    rintro t ht rfl
    rw [hself, hvalid] at ht
    cases ht
  refine ⟨fun {t} ht h => ?_, fun {t} h => ?_, fun t => ?_, fun {t} ht => ?_, fun {t} ht => ?_,
    fun h hbusy => ?_, fun h => ?_⟩ <;> dsimp only at *
  · have hts : t ≠ s := fun heq => ht (.inl heq)
    rw [hother hts] at h ⊢
    exact hI.settled ht h
  · have hts := hne h
    rw [hother hts] at h ⊢
    exact hI.fresh h
  · by_cases hts : T.const t = s
    · rw [hts, hself, hvalid]
    · rw [hother hts]
      exact hI.const t
  · by_cases hts : t = s
    · rw [hts, hself, hvalid]
    · rw [hother hts]
      exact hI.under ht
  · by_cases hts : t = s
    · subst hts
      rw [hself, hhas ht]
      exact hI.hasValue ht
    · rw [hother hts]
      exact hI.hasValue ht
  · have hts : T.modules ≠ s := fun heq => hbusy (.inl heq)
    rw [hother hts] at h
    exact hI.modulesVal h hbusy
  · have hts := hne h
    rw [hother hts] at h ⊢
    exact hI.modulesOld h

theorem Step.change (hs : ¬busy s) {c : Cell S} (hvalid : (σ.cell s).valid = true → c.valid = true)
    (hvisible : c.visible = (σ.cell s).visible ∨ c.visible = (w s).visible) :
    T.Step w busy σ { σ with cell := Function.update σ.cell s c } := by
  refine ⟨fun {t} ht => ?_, fun {t} ht => ?_, fun {t} ht => ?_, fun _ => rfl⟩ <;> dsimp only
  · rw [Function.update_of_ne fun heq : t = s => hs (heq ▸ ht)]
    exact Frame.refl _
  · by_cases hts : t = s
    · subst hts
      rw [Function.update_self]
      exact hvalid ht
    · rwa [Function.update_of_ne hts]
  · by_cases hts : t = s
    · subst hts
      rw [Function.update_self]
      exact hvisible.elim (fun h => h.trans ht) id
    · rwa [Function.update_of_ne hts]

theorem steady_change (hs : ¬busy s) {f : Cell S → Cell S} {P Q : State S → Prop}
    (hvalid : ∀ c, (f c).valid = c.valid) (hhas : T.isChoice s = false → ∀ c, (f c).hasValue = c.hasValue)
    (hvisible : ∀ c, (f c).visible = c.visible ∨ (f c).visible = (w s).visible)
    (hQ : ∀ σ, T.Inv has w (also busy s) σ → P σ →
      Q { σ with cell := Function.update σ.cell s (f (σ.cell s)) }) :
    Steady (T.Inv has w (also busy s)) (T.Step w busy) P (change s f) () Q := by
  have hunder : ∀ σ, T.Inv has w (also busy s) σ → (f (σ.cell s)).valid = true := fun σ hI => by
    rw [hvalid]
    exact hI.under (.inl rfl)
  exact Steady.modify fun σ hI hP => ⟨hI.change (hunder σ hI) fun h => hhas h _,
    Step.change hs (fun _ => hunder σ hI) (hvisible _), hQ σ hI hP⟩

theorem Ready.update {x : Cell S} (h : T.Ready rank (also busy s) s σ) :
    T.Ready rank (also busy s) s { σ with cell := Function.update σ.cell s x } := by
  refine h.imp_left fun ⟨hvalid, hbusy⟩ => ⟨?_, hbusy⟩
  show (Function.update σ.cell s x T.modules).valid = true
  rwa [Function.update_of_ne fun heq : T.modules = s => hbusy (.inl heq)]

/-- A change of the cell that is tracked -/
theorem steady_at (hs : ¬busy s) {f : Cell S → Cell S} (hvalid : ∀ c, (f c).valid = c.valid)
    (hhas : T.isChoice s = false → ∀ c, (f c).hasValue = c.hasValue)
    (hvisible : ∀ c, (f c).visible = c.visible ∨ (f c).visible = (w s).visible)
    (hframe : ∀ c', T.Frame w s c c' → T.Frame w s (f c) (f c')) :
    Steady (T.Inv has w (also busy s)) (T.Step w busy) (At T w rank busy s c) (change s f) ()
      (At T w rank busy s (f c)) := by
  refine steady_change hs hvalid hhas hvisible fun σ _ hσ => ⟨hσ.1.update, ?_⟩
  show T.Frame w s (f c) (Function.update σ.cell s (f (σ.cell s)) s)
  rw [Function.update_self]
  exact hframe _ hσ.2

/-- The visibility of a value of a choice, for the choice `s` -/
theorem value_visibility (hacyclic : T.Acyclic rank) (hchoices : T.Choices) (hw : T.Solves w user has)
    (hcall : Calls T has w rank call (rank s)) (hbusy : ∀ p, busy p → rank s < rank p)
    (hs : T.isChoice s = true) (hyes : (T.currCell w user has s).curr.tri = .yes) {v : S}
    (hv : v ∈ T.values s) :
    Steady (T.Inv has w (also busy s)) (T.Step w (also busy s))
      (fun σ => T.Ready rank (also busy s) s σ ∧
        Known (Function.update w s (T.currCell w user has s)) s σ)
      (T.symCalcVisibility call v) ()
      (fun σ => (T.Ready rank (also busy s) s σ ∧
        Known (Function.update w s (T.currCell w user has s)) s σ) ∧
        (σ.cell v).visible = (w v).visible) := by
  have hchoice := hchoices.mem_values.mpr hv
  have hvalue : T.isChoiceValue v = true := by rw [isChoiceValue, hchoice]; rfl
  have hfinds := hcall.finds_update hacyclic hw.ne_mod hbusy hyes
  have hprompts := hfinds.promptsCalcValue (s := v) (T.prompts v)
    (fun cond hcond e he t ht => or_iff_not_imp_left.mpr (hacyclic.value hv hcond he ht))
    (fun c hc cond hcond => by
      obtain ⟨e, he, hdepends⟩ := hchoices.prompts hc hcond
      exact ⟨e, he, exprContainsSymbol_of_depends hdepends⟩) .no
  refine (hprompts.post fun _ _ hσ => hσ.1).bind ?_
  refine Steady.get (y := do
    change v fun c => { c with visible := (w v).visible }
    return ()) (fun σ hI hσ => ?_) ?_
  · have hmodules : T.type v = some .tristate → σ.modulesVal =
        (Function.update w s (T.currCell w user has s) T.modules).curr.tri := fun htype => by
      have hlt := hacyclic.choiceModules hchoice htype
      rw [hI.modulesVal_of_ready hσ.1 hlt, Function.update_of_ne fun heq => lt_irrefl _ (heq ▸ hlt)]
    have hval : T.noModPrompt v σ.modulesVal
        (T.promptsVal (Function.update w s (T.currCell w user has s)) v) = (w v).visible := by
      rw [noModPrompt_congr hmodules]
      exact hw.visible_value hacyclic hchoices hs hv hyes
    rw [← hval, if_pos hvalue]
    rfl
  · refine Steady.bind (Q := fun σ => (T.Ready rank (also busy s) s σ ∧
      Known (Function.update w s (T.currCell w user has s)) s σ) ∧
      (σ.cell v).visible = (w v).visible) (Steady.modify fun σ hI hσ => ?_) Steady.pure
    have hframe : ∀ t, T.Frame w t (σ.cell t)
        (Function.update σ.cell v { σ.cell v with visible := (w v).visible } t) := by
      intro t
      by_cases htv : t = v
      · subst htv
        rw [Function.update_self]
        exact ⟨rfl, fun h => (by rw [hvalue] at h; cases h), .inr rfl, id⟩
      · rw [Function.update_of_ne htv]
        exact Frame.refl _
    set σ' : State S := { σ with
      cell := Function.update σ.cell v { σ.cell v with visible := (w v).visible } }
    obtain ⟨hI', hstep⟩ : T.Inv has w (also busy s) σ' ∧ T.Step w (also busy s) σ σ' :=
      hI.frame hchoices hframe rfl
    refine ⟨hI', hstep, ⟨hσ.1.step hstep, hσ.2.step hI hI' hstep⟩, ?_⟩
    show (Function.update σ.cell v _ v).visible = _
    rw [Function.update_self]

/-! ### The visibility of the symbol itself -/

omit [DecidableEq S] in
theorem Frame.map (hs : T.isChoiceValue s = false) {c c' : Cell S} (f : Cell S → Cell S)
    (h : T.Frame w s c c') : T.Frame w s (f c) (f c') := by
  rw [h.same hs]
  exact Frame.refl _

omit [DecidableEq S] in
theorem Frame.visible_eq {c c' : Cell S} (h : T.Frame w s c c') (hc : c.visible = (w s).visible) :
    c'.visible = (w s).visible := h.visible.elim (fun heq => heq.trans hc) id

omit [DecidableEq S] in
theorem Step.mono (h : T.Step w (also busy s) σ σ') : T.Step w busy σ σ' :=
  ⟨fun hs => h.frame (.inr hs), h.valid, h.visible, h.modulesVal⟩

omit [DecidableEq S] in
theorem At.step (h : T.Step w (also busy s) σ σ') (hσ : At T w rank busy s c σ) :
    At T w rank busy s c σ' := ⟨hσ.1.step h, hσ.2.trans (h.frame (.inl rfl))⟩

omit [DecidableEq S] in
/-- What is found for the symbol under way, with its cell. -/
theorem steady_found {α : Type} {x : Calc S α} {a : α} {Q : State S → Prop}
    (h : Steady (T.Inv has w (also busy s)) (T.Step w (also busy s)) (T.Ready rank (also busy s) s)
      x a Q) :
    Steady (T.Inv has w (also busy s)) (T.Step w busy) (At T w rank busy s c) x a
      (fun σ => Q σ ∧ At T w rank busy s c σ) :=
  ((h.frame fun _ _ _ _ => At.step).pre fun _ _ hσ => ⟨hσ.1, hσ⟩).rel fun _ _ => Step.mono

theorem own_dep (hacyclic : T.Acyclic rank) (hw : T.Solves w user has)
    (hcall : Calls T has w rank call (rank s)) (hbusy : ∀ p, busy p → rank s < rank p)
    (hc : c.visible = (w s).visible) {dep : Option (Expr S)}
    (hdep : ∀ e ∈ dep, Below rank (rank s) e) (tri : Tristate) :
    Steady (T.Inv has w (also busy s)) (T.Step w busy) (At T w rank busy s c)
      (T.depCalcValue call s tri dep)
      (T.noMod s (w s).visible (w T.modules).curr.tri (dep.elim tri (T.exprVal w)))
      (At T w rank busy s c) := by
  have hfinds := hcall.finds hacyclic hw.ne_mod hbusy
  have hvalue : Steady (T.Inv has w (also busy s)) (T.Step w (also busy s))
      (T.Ready rank (also busy s) s) (dep.elim (pure tri) (T.exprCalcValue call))
      (dep.elim tri (T.exprVal w)) (T.Ready rank (also busy s) s) := by
    rcases dep with _ | e
    · exact Steady.pure
    · exact (hfinds.exprCalcValue (hdep e rfl)).post fun _ _ hσ => hσ.1
  refine (steady_found hvalue).bind (Steady.get (fun σ hI hσ => ?_)
    (Steady.pure.post fun _ _ hσ => hσ.2))
  rw [hσ.2.2.visible_eq hc, noMod_congr fun htype =>
    hI.modulesVal_of_ready hσ.1 (hacyclic.modules htype)]

/-- Nothing but the visibility and the value is calculated of a value of a choice. -/
theorem steady_at_of_not_value (hs : ¬busy s) (hvalue : T.isChoiceValue s = false)
    (f : Cell S → Cell S)
    (hf : ∀ c, (f c).valid = c.valid ∧ (f c).hasValue = c.hasValue ∧ (f c).visible = c.visible) :
    Steady (T.Inv has w (also busy s)) (T.Step w busy) (At T w rank busy s c) (change s f) ()
      (At T w rank busy s (f c)) :=
  steady_at hs (fun c => (hf c).1) (fun _ c => (hf c).2.1) (fun c => .inl (hf c).2.2)
    fun _ h => h.map hvalue f

/-- The direct, reverse and weak reverse dependencies -/
theorem own_deps (hacyclic : T.Acyclic rank) (hw : T.Solves w user has)
    (hcall : Calls T has w rank call (rank s)) (hbusy : ∀ p, busy p → rank s < rank p)
    (htype : T.type s ≠ none) (hvalue : T.isChoiceValue s = false) (hc : c.visible = (w s).visible) :
    Steady (T.Inv has w (also busy s)) (T.Step w busy) (At T w rank busy s c)
      (do
        let tri ← T.depCalcValue call s .yes (T.dirDep s)
        change s fun c => { c with dirDep := tri }
        let tri ← T.depCalcValue call s .no (T.revDep s)
        change s fun c => { c with revDep := tri }
        let σ ← get
        let tri ← T.depCalcValue call s .no (if (σ.cell s).dirDep = .no then none else T.implied s)
        change s fun c => { c with implied := tri }) ()
      (At T w rank busy s (T.visibilityVal w s c)) := by
  have hs : ¬busy s := fun h => lt_irrefl _ (hbusy s h)
  set dir := T.noMod s (w s).visible (w T.modules).curr.tri ((T.dirDep s).elim .yes (T.exprVal w)) with hdir
  set rev := T.noMod s (w s).visible (w T.modules).curr.tri ((T.revDep s).elim .no (T.exprVal w))
  refine (own_dep hacyclic hw hcall hbusy hc (fun e he => hacyclic.dirDep e he) .yes).bind ?_
  refine (steady_at_of_not_value hs hvalue (fun c => { c with dirDep := dir })
    fun _ => ⟨rfl, rfl, rfl⟩).bind ?_
  refine (own_dep (c := { c with dirDep := dir }) hacyclic hw hcall hbusy hc
    (fun e he => hacyclic.revDep e he) .no).bind ?_
  refine (steady_at_of_not_value hs hvalue (fun c => { c with revDep := rev })
    fun _ => ⟨rfl, rfl, rfl⟩).bind ?_
  refine Steady.get (y := do
    let tri ← T.depCalcValue call s .no (if dir = .no then none else T.implied s)
    change s fun c => { c with implied := tri }) (fun σ _ hσ => by rw [hσ.2.same hvalue]) ?_
  have himplied : ∀ e ∈ (if dir = .no then none else T.implied s), Below rank (rank s) e := by
    intro e he
    split_ifs at he
    · cases he
    · exact hacyclic.implied e he
  refine (own_dep (c := { c with dirDep := dir, revDep := rev }) hacyclic hw hcall hbusy hc
    himplied .no).bind ?_
  set imp := T.noMod s (w s).visible (w T.modules).curr.tri
    ((if dir = .no then none else T.implied s).elim .no (T.exprVal w)) with himp
  refine (steady_at_of_not_value hs hvalue (fun c => { c with implied := imp })
    fun _ => ⟨rfl, rfl, rfl⟩).post fun σ _ hσ => ?_
  have hcell : T.visibilityVal w s c = { c with dirDep := dir, revDep := rev, implied := imp } := by
    have hdep : (if dir = .no then Tristate.no else (T.implied s).elim .no (T.exprVal w)) =
        (if dir = .no then none else T.implied s).elim .no (T.exprVal w) := by
      split_ifs
      · rfl
      · rfl
    have hself : { c with visible := (w s).visible } = c := by rw [← hc]
    rw [himp, ← hdep, visibilityVal, if_neg (by rw [hvalue]; exact Bool.false_ne_true),
      ← hw.visible htype]
    exact congrArg (fun c : Cell S => { c with
      dirDep := dir
      revDep := rev
      implied := T.noMod s (w s).visible (w T.modules).curr.tri
        (if dir = Tristate.no then Tristate.no else (T.implied s).elim .no (T.exprVal w)) }) hself
  rw [hcell]
  exact hσ

/-- `sym_calc_visibility` of the symbol under way -/
theorem own_visibility (hacyclic : T.Acyclic rank) (hchoices : T.Choices) (hw : T.Solves w user has)
    (hcall : Calls T has w rank call (rank s)) (hbusy : ∀ p, busy p → rank s < rank p)
    (htype : T.type s ≠ none) :
    Steady (T.Inv has w (also busy s)) (T.Step w busy) (At T w rank busy s c)
      (T.symCalcVisibility call s) ()
      (fun σ => At T w rank busy s (T.visibilityVal w s c) σ ∧
        (T.prompts s ≠ [] → ∀ ch, T.choiceOf s = some ch → (σ.cell ch).valid = true)) := by
  have hs : ¬busy s := fun h => lt_irrefl _ (hbusy s h)
  have hprompts := (hcall.finds hacyclic hw.ne_mod hbusy).promptsCalcValue (s := s)
    (T.prompts s) (fun cond hcond e he t ht => hacyclic.prompts hcond he t ht)
    (fun c hc cond hcond => by
      obtain ⟨e, he, hdepends⟩ := hchoices.prompts hc hcond
      exact ⟨e, he, exprContainsSymbol_of_depends hdepends⟩) .no
  have hvisible := hw.visible htype
  have hchange : Steady (T.Inv has w (also busy s)) (T.Step w busy) (At T w rank busy s c)
      (change s fun c => { c with visible := (w s).visible }) ()
      (At T w rank busy s { c with visible := (w s).visible }) := by
    refine steady_at hs (fun _ => rfl) (fun _ _ => rfl) (fun _ => .inr rfl) fun c' h => ?_
    refine ⟨?_, fun hvalue => ?_, .inl rfl, h.write⟩
    · rw [h.eq]
    · rw [h.same hvalue]
  have hcalled := steady_found (c := c) (hprompts.post fun σ _ hσ =>
    (show T.prompts s ≠ [] → ∀ ch, T.choiceOf s = some ch → (σ.cell ch).valid = true from
      fun h ch hch => (hσ.2 h ch hch).1))
  have hkeep : ∀ σ σ', T.Inv has w (also busy s) σ → T.Inv has w (also busy s) σ' → T.Step w busy σ σ' →
      (T.prompts s ≠ [] → ∀ ch, T.choiceOf s = some ch → (σ.cell ch).valid = true) →
      T.prompts s ≠ [] → ∀ ch, T.choiceOf s = some ch → (σ'.cell ch).valid = true :=
    fun σ σ' _ _ hstep h hne ch hch => hstep.valid (h hne ch hch)
  have hval : ∀ σ, T.Inv has w (also busy s) σ → T.Ready rank (also busy s) s σ →
      T.noModPrompt s σ.modulesVal (T.promptsVal w s) = (w s).visible := fun σ hI hσ => by
    rw [hvisible, visibleVal, noModPrompt_congr fun h =>
      hI.modulesVal_of_ready hσ (hacyclic.modules h)]
  refine hcalled.bind ?_
  by_cases hvalue : T.isChoiceValue s = true
  · refine Steady.get (y := do
      change s fun c => { c with visible := (w s).visible }
      return ()) (fun σ hI hσ => ?_) ?_
    · rw [← hval σ hI hσ.2.1, if_pos hvalue]
      rfl
    · refine ((hchange.bind Steady.pure).frame hkeep).pre (fun _ _ h => h.symm) |>.post fun σ _ hσ => ?_
      rw [visibilityVal, if_pos hvalue, ← hvisible]
      exact hσ
  · have hnot : T.isChoiceValue s = false := Bool.eq_false_iff.mpr hvalue
    refine Steady.get (y := do
      change s fun c => { c with visible := (w s).visible }
      let tri ← T.depCalcValue call s .yes (T.dirDep s)
      change s fun c => { c with dirDep := tri }
      let tri ← T.depCalcValue call s .no (T.revDep s)
      change s fun c => { c with revDep := tri }
      let σ ← get
      let tri ← T.depCalcValue call s .no (if (σ.cell s).dirDep = .no then none else T.implied s)
      change s fun c => { c with implied := tri }) (fun σ hI hσ => ?_) ?_
    · rw [← hval σ hI hσ.2.1, if_neg hvalue]
      rfl
    · have hdeps := own_deps (c := { c with visible := (w s).visible }) hacyclic hw hcall hbusy htype
        hnot rfl
      have hcell : T.visibilityVal w s { c with visible := (w s).visible } = T.visibilityVal w s c := by
        rw [visibilityVal, visibilityVal, if_neg hvalue]
      rw [hcell] at hdeps
      exact ((hchange.bind hdeps).frame hkeep).pre fun _ _ h => h.symm

/-! ### The value of the symbol itself -/

omit [DecidableEq S] in
theorem Frame.or_write {c c' : Cell S} (h : T.Frame w s c c') (b : Bool) :
    T.Frame w s { c with write := c.write || b } { c' with write := c'.write || b } := by
  refine ⟨by rw [h.eq], fun hvalue => by rw [h.same hvalue], h.visible, fun hwrite => ?_⟩
  exact Bool.or_eq_true_iff.mpr ((Bool.or_eq_true_iff.mp hwrite).imp_left h.write)

theorem own_write (hs : ¬busy s) (b : Cell S → Bool) (hb : ∀ c', T.Frame w s c c' → b c' = b c) :
    Steady (T.Inv has w (also busy s)) (T.Step w busy) (At T w rank busy s c)
      (change s fun c => { c with write := c.write || b c }) ()
      (At T w rank busy s { c with write := c.write || b c }) := by
  refine steady_at hs (fun _ => rfl) (fun _ _ => rfl) (fun _ => .inl rfl) fun c' h => ?_
  rw [hb c' h]
  exact h.or_write (b c)

theorem own_default (hacyclic : T.Acyclic rank) (hw : T.Solves w user has)
    (hcall : Calls T has w rank call (rank s)) (hbusy : ∀ p, busy p → rank s < rank p)
    (hnot : T.isChoice s = false) :
    Steady (T.Inv has w (also busy s)) (T.Step w busy) (At T w rank busy s c)
      (T.defaultCalcValue call s)
      ((T.defaultVal w s).elim .no fun p => (T.exprVal w p.1.expr).and p.2)
      (At T w rank busy s { c with write := (T.defaultVal w s).elim c.write fun p =>
        c.write || (T.exprVal w p.1.expr).and p.2 ≠ .no }) := by
  have hs : ¬busy s := fun h => lt_irrefl _ (hbusy s h)
  have hfinds := hcall.finds hacyclic hw.ne_mod hbusy
  have hprop : Steady _ _ _ _ (T.defaultVal w s) _ :=
    hfinds.symGetDefaultProp (T.defaults s) fun p hp e he => hacyclic.defaults hp e he
  refine (steady_found hprop).bind ?_
  rcases hp : T.defaultVal w s with _ | p
  · exact Steady.pure.post fun _ _ hσ => hσ.2
  · have hexpr := hfinds.exprCalcValue (hacyclic.default (mem_of_defaultVal hp) hnot)
    refine ((steady_found hexpr).pre fun _ _ hσ => hσ.2).bind ?_
    exact ((own_write hs (fun _ => _) fun _ _ => rfl).pre fun _ _ hσ => hσ.2).bind Steady.pure

omit [DecidableEq S] in
theorem own_implied (tri : Tristate) (write : Bool) :
    Steady (T.Inv has w (also busy s)) (T.Step w busy)
      (At T w rank busy s { c with write := write || c.implied ≠ .no })
      (do
        let σ ← get
        return if (σ.cell s).implied ≠ .no then tri.or (σ.cell s).implied else tri)
      (if c.implied ≠ .no then (tri.or c.implied, true) else (tri, write)).1
      (At T w rank busy s { c with
        write := (if c.implied ≠ .no then (tri.or c.implied, true) else (tri, write)).2 }) := by
  refine Steady.get (y := pure (if c.implied ≠ .no then tri.or c.implied else tri)) (fun σ _ hσ => ?_) ?_
  · have himplied : (σ.cell s).implied = c.implied := hσ.2.implied
    rw [himplied]
  · by_cases himplied : c.implied = .no
    · simp only [himplied, ne_eq, not_true_eq_false, if_false, decide_false, Bool.or_false]
      exact Steady.pure
    · simp only [himplied, ne_eq, not_false_eq_true, if_true, decide_true, Bool.or_true]
      exact Steady.pure

theorem own_unset (hacyclic : T.Acyclic rank) (hw : T.Solves w user has)
    (hcall : Calls T has w rank call (rank s)) (hbusy : ∀ p, busy p → rank s < rank p) :
    Steady (T.Inv has w (also busy s)) (T.Step w busy) (At T w rank busy s c)
      (T.unsetCalcValue call s) (T.unsetVal w s c).1
      (At T w rank busy s { c with write := (T.unsetVal w s c).2 }) := by
  have hs : ¬busy s := fun h => lt_irrefl _ (hbusy s h)
  refine (own_write hs (fun c => c.revDep ≠ .no) fun c' h => by rw [h.revDep]).bind ?_
  rw [unsetVal]
  by_cases hchoice : T.isChoice s = true
  · rw [if_pos hchoice, if_pos hchoice]
    exact Steady.pure
  rw [if_neg hchoice, if_neg hchoice]
  refine (own_default hacyclic hw hcall hbusy (Bool.eq_false_of_not_eq_true hchoice)).bind ?_
  refine (own_write hs (fun c => c.implied ≠ .no) fun c' h => by rw [h.implied]).bind ?_
  have hp : ∀ write, ((T.defaultVal w s).elim (Tristate.no, write) fun p =>
      ((T.exprVal w p.1.expr).and p.2, write || (T.exprVal w p.1.expr).and p.2 ≠ .no)) =
      ((T.defaultVal w s).elim .no fun p => (T.exprVal w p.1.expr).and p.2,
        (T.defaultVal w s).elim write fun p => write || (T.exprVal w p.1.expr).and p.2 ≠ .no) := by
    intro write
    rcases T.defaultVal w s with _ | p
    · rfl
    · rfl
  dsimp only
  rw [hp]
  exact own_implied _ _

theorem own_newTri (hacyclic : T.Acyclic rank) (hw : T.Solves w user has)
    (hcall : Calls T has w rank call (rank s)) (hbusy : ∀ p, busy p → rank s < rank p)
    (hc : c.visible = (w s).visible) :
    Steady (T.Inv has w (also busy s)) (T.Step w busy)
      (fun σ => At T w rank busy s c σ ∧ ((w s).visible ≠ .no →
        ∀ ch, T.choiceOf s = some ch → (σ.cell ch).valid = true))
      (T.newTriCalcValue user call s) (T.newTriVal w user s c).1
      (At T w rank busy s { c with write := (T.newTriVal w user s c).2 }) := by
  rw [newTriVal]
  have hchosen : ∀ {σ}, T.Inv has w (also busy s) σ → (∀ ch, T.choiceOf s = some ch →
      (σ.cell ch).valid = true) → ((T.choiceOf s).any fun ch => (σ.cell ch).curr.chosen = some s) =
        (T.choiceOf s).any fun ch => (w ch).curr.chosen = some s := by
    intro σ hI hvalid
    rcases hch : T.choiceOf s with _ | ch
    · rfl
    · have hnot : ¬also busy s ch := by
        rintro (rfl | h)
        · exact lt_irrefl _ (hacyclic.choice hch)
        · exact lt_irrefl _ ((hbusy ch h).trans (hacyclic.choice hch))
      rw [Option.any_some, Option.any_some, (hI.known hnot (hvalid ch hch)).2]
  by_cases hvalue : T.isChoiceValue s = true ∧ c.visible = .yes
  · rw [if_pos hvalue]
    refine Steady.get (fun σ hI hσ => ?_) (Steady.pure.post fun _ _ hσ => hσ.1)
    rw [hσ.1.2.visible_eq hc, ← hc, if_pos hvalue, hchosen hI (hσ.2 (by rw [← hc, hvalue.2]; decide))]
  rw [if_neg hvalue]
  by_cases hset : c.visible ≠ .no ∧ c.hasValue = true
  · rw [if_pos hset]
    refine Steady.get (fun σ hI hσ => ?_) (Steady.pure.post fun _ _ hσ => hσ.1)
    rw [hσ.1.2.visible_eq hc, ← hc, if_neg hvalue, hσ.1.2.hasValue, if_pos hset, hσ.1.2.revDep]
  · rw [if_neg hset]
    refine Steady.get (y := do
      let tri ← T.unsetCalcValue call s
      let σ ← get
      return tri.or (σ.cell s).revDep) (fun σ hI hσ => ?_) ?_
    · rw [hσ.1.2.visible_eq hc, ← hc, if_neg hvalue, hσ.1.2.hasValue, if_neg hset]
    · refine ((own_unset hacyclic hw hcall hbusy).pre fun _ _ hσ => hσ.1).bind
        (Steady.get (fun σ hI hσ => ?_) Steady.pure)
      have hrev : (σ.cell s).revDep = c.revDep := hσ.2.revDep
      rw [hrev]

theorem own_tri (hacyclic : T.Acyclic rank) (hw : T.Solves w user has)
    (hcall : Calls T has w rank call (rank s)) (hbusy : ∀ p, busy p → rank s < rank p)
    (hc : c.visible = (w s).visible) :
    Steady (T.Inv has w (also busy s)) (T.Step w busy)
      (fun σ => At T w rank busy s c σ ∧ ((w s).visible ≠ .no →
        ∀ ch, T.choiceOf s = some ch → (σ.cell ch).valid = true))
      (T.triCalcValue user call s)
      (T.finishTri s c (w T.modules).curr.tri (T.newTriVal w user s c).1)
      (At T w rank busy s { c with write := (T.newTriVal w user s c).2 }) := by
  refine (own_newTri hacyclic hw hcall hbusy hc).bind (Steady.get (fun σ hI hσ => ?_) Steady.pure)
  have hcell : T.finishTri s (σ.cell s) = T.finishTri s c := by
    have hvisible : (σ.cell s).visible = c.visible := (hσ.2.visible_eq hc).trans hc.symm
    have himplied : (σ.cell s).implied = c.implied := hσ.2.implied
    funext m tri
    rw [finishTri, finishTri, hvisible, himplied]
  rw [hcell, finishTri_congr fun htype => hI.modulesVal_of_ready hσ.1 (hacyclic.modules htype)]

theorem own_defaultText (hacyclic : T.Acyclic rank) (hw : T.Solves w user has)
    (hcall : Calls T has w rank call (rank s)) (hbusy : ∀ p, busy p → rank s < rank p)
    (hnot : T.isChoice s = false) :
    Steady (T.Inv has w (also busy s)) (T.Step w busy) (At T w rank busy s c)
      (T.defaultTextCalcValue call s)
      (((T.defaultVal w s).bind fun p => propGetSymbol p.1.expr).elim ([], c.write) fun ds =>
        ((w ds).curr.val, true)).1
      (At T w rank busy s { c with
        write := (((T.defaultVal w s).bind fun p => propGetSymbol p.1.expr).elim ([], c.write)
          fun ds => ((w ds).curr.val, true)).2 }) := by
  have hs : ¬busy s := fun h => lt_irrefl _ (hbusy s h)
  have hfinds := hcall.finds hacyclic hw.ne_mod hbusy
  have hprop : Steady _ _ _ _ (T.defaultVal w s) _ :=
    hfinds.symGetDefaultProp (T.defaults s) fun p hp e he => hacyclic.defaults hp e he
  refine (steady_found hprop).bind ?_
  rcases hds : (T.defaultVal w s).bind fun p => propGetSymbol p.1.expr with _ | ds
  · exact Steady.pure.post fun _ _ hσ => hσ.2
  · obtain ⟨p, hp, hexpr⟩ := Option.bind_eq_some_iff.mp hds
    have hlt := hacyclic.default (mem_of_defaultVal hp) hnot ds (propGetSymbol_contains hexpr)
    have hwrite : Steady (T.Inv has w (also busy s)) (T.Step w busy) (At T w rank busy s c)
        (change s fun c => { c with write := true }) () (At T w rank busy s { c with write := true }) :=
      steady_at hs (fun _ => rfl) (fun _ _ => rfl) (fun _ => .inl rfl) fun c' h =>
        ⟨by rw [h.eq], fun hvalue => by rw [h.same hvalue], h.visible, fun _ => rfl⟩
    refine (hwrite.pre fun _ _ hσ => hσ.2).bind ((steady_found (hfinds.call hlt)).bind ?_)
    refine Steady.get (y := pure (w ds).curr.val) (fun σ hI hσ => ?_)
      (Steady.pure.post fun _ _ hσ => hσ.2)
    rw [hσ.1.2.2]

theorem own_text (hacyclic : T.Acyclic rank) (hw : T.Solves w user has)
    (hcall : Calls T has w rank call (rank s)) (hbusy : ∀ p, busy p → rank s < rank p)
    (hnot : T.isChoice s = false) (hc : c.visible = (w s).visible) :
    Steady (T.Inv has w (also busy s)) (T.Step w busy) (At T w rank busy s c)
      (T.textCalcValue user call s) (T.newTextVal w user s c).1
      (At T w rank busy s { c with write := (T.newTextVal w user s c).2 }) := by
  rw [newTextVal]
  by_cases hset : c.visible ≠ .no ∧ c.hasValue = true
  · rw [if_pos hset]
    refine Steady.get (fun σ hI hσ => ?_) Steady.pure
    rw [hσ.2.visible_eq hc, ← hc, hσ.2.hasValue, if_pos hset]
  · rw [if_neg hset]
    refine Steady.get (fun σ hI hσ => ?_) (own_defaultText hacyclic hw hcall hbusy hnot)
    rw [hσ.2.visible_eq hc, ← hc, hσ.2.hasValue, if_neg hset]

theorem own_curr (hs : ¬busy s) (f : SymbolValue S → SymbolValue S) :
    Steady (T.Inv has w (also busy s)) (T.Step w busy) (At T w rank busy s c)
      (change s fun c => { c with curr := f c.curr }) ()
      (At T w rank busy s { c with curr := f c.curr }) := by
  refine steady_at hs (fun _ => rfl) (fun _ _ => rfl) (fun _ => .inl rfl) fun c' h => ?_
  refine ⟨?_, fun hvalue => by rw [h.same hvalue], h.visible, h.write⟩
  rw [h.eq]

/-- The cell when `calcCurr` is done. -/
def unranged (T : Table S) (w : S → Cell S) (user : S → SymbolValue S) (s : S) (c : Cell S) : Cell S :=
  if T.IsTri s then T.triVal w user s c
  else { c with
    write := (T.newTextVal w user s c).2
    curr := { symbolEmpty with val := (T.newTextVal w user s c).1 } }

theorem own_calcCurr (hacyclic : T.Acyclic rank) (hchoices : T.Choices) (hw : T.Solves w user has)
    (hcall : Calls T has w rank call (rank s)) (hbusy : ∀ p, busy p → rank s < rank p)
    (hc : c.visible = (w s).visible) :
    Steady (T.Inv has w (also busy s)) (T.Step w busy)
      (fun σ => At T w rank busy s c σ ∧ ((w s).visible ≠ .no →
        ∀ ch, T.choiceOf s = some ch → (σ.cell ch).valid = true))
      (T.calcCurr user call s) () (At T w rank busy s (unranged T w user s c)) := by
  have hs : ¬busy s := fun h => lt_irrefl _ (hbusy s h)
  rw [calcCurr, unranged]
  by_cases htri : T.IsTri s
  · rw [if_pos htri, if_pos htri]
    exact (own_tri hacyclic hw hcall hbusy hc).bind (own_curr hs fun _ => { symbolNo with
      tri := T.finishTri s c (w T.modules).curr.tri (T.newTriVal w user s c).1 })
  · rw [if_neg htri, if_neg htri]
    have hnot := Bool.eq_false_of_not_eq_true (mt hchoices.isTri htri)
    exact ((own_text hacyclic hw hcall hbusy hnot hc).pre fun _ _ hσ => hσ.1).bind
      (own_curr hs fun _ => { symbolEmpty with val := (T.newTextVal w user s c).1 })

/-- `sym_validate_range` of the symbol under way -/
theorem own_validateRange (hacyclic : T.Acyclic rank) (hw : T.Solves w user has)
    (hcall : Calls T has w rank call (rank s)) (hbusy : ∀ p, busy p → rank s < rank p) :
    Steady (T.Inv has w (also busy s)) (T.Step w busy) (At T w rank busy s c)
      (T.symValidateRange call s) ()
      (At T w rank busy s { c with curr := { c.curr with val := T.validVal w s c.curr.val } }) := by
  have hs : ¬busy s := fun h => lt_irrefl _ (hbusy s h)
  have hfinds := hcall.finds hacyclic hw.ne_mod hbusy
  rw [symValidateRange, validVal]
  by_cases htype : T.type s = some .int ∨ T.type s = some .hex
  swap
  · rw [if_neg htype, if_neg htype]
    exact Steady.pure
  rw [if_pos htype, if_pos htype]
  have hprop : Steady _ _ _ _ (T.rangeVal w s) _ :=
    hfinds.symGetRangeProp (T.ranges s) fun p hp e he => (hacyclic.ranges hp).1 e he
  refine (steady_found hprop).bind ?_
  rcases hp : T.rangeVal w s with _ | p
  · exact Steady.pure.post fun _ _ hσ => hσ.2
  obtain ⟨-, hleft, hright⟩ := hacyclic.ranges (List.mem_of_find?_eq_some hp)
  rw [Option.elim_some]
  set base := baseOf (T.type s) 0 with hbase
  have hset : ∀ val, Steady (T.Inv has w (also busy s)) (T.Step w busy) (At T w rank busy s c)
      (setVal s val) () (At T w rank busy s { c with curr := { c.curr with val } }) := fun val =>
    own_curr hs fun curr => { curr with val }
  refine Steady.get (y := do
    let val2 ← T.symGetRangeVal call p.left base
    if val2 ≤ strtoll base c.curr.val then
      let val2 ← T.symGetRangeVal call p.right base
      if strtoll base c.curr.val ≤ val2 then return ()
      else setVal s (rangeText (T.type s) val2)
    else setVal s (rangeText (T.type s) val2)) (fun σ hI hσ => by rw [hσ.2.2.curr]) ?_
  refine ((steady_found (hfinds.symGetRangeVal hleft base)).pre fun _ _ hσ => hσ.2).bind ?_
  by_cases hle : T.rangeNumber w base p.left ≤ strtoll base c.curr.val
  · rw [if_pos hle, if_pos hle]
    refine ((steady_found (hfinds.symGetRangeVal hright base)).pre fun _ _ hσ => hσ.2).bind ?_
    by_cases hle' : strtoll base c.curr.val ≤ T.rangeNumber w base p.right
    · rw [if_pos hle', if_pos hle']
      exact Steady.pure.post fun _ _ hσ => hσ.2
    · rw [if_neg hle', if_neg hle']
      exact (hset _).pre fun _ _ hσ => hσ.2
  · rw [if_neg hle, if_neg hle]
    exact (hset _).pre fun _ _ hσ => hσ.2

/-! ### Choices -/

/-- The visibilities of the values of the choice `s` are put down. -/
def Seen (T : Table S) (w : S → Cell S) (s : S) (σ : State S) : Prop :=
  ∀ v ∈ T.values s, (σ.cell v).visible = (w v).visible

omit [DecidableEq S] in
theorem Seen.step (h : T.Step w busy σ σ') (hσ : Seen T w s σ) : Seen T w s σ' :=
  fun v hv => h.visible (hσ v hv)

theorem calcVisibilities_steady (hacyclic : T.Acyclic rank) (hchoices : T.Choices)
    (hw : T.Solves w user has) (hcall : Calls T has w rank call (rank s))
    (hbusy : ∀ p, busy p → rank s < rank p) (hs : T.isChoice s = true)
    (hyes : (T.currCell w user has s).curr.tri = .yes) {vs : List S} (hvs : ∀ v ∈ vs, v ∈ T.values s)
    (flag : Bool) :
    Steady (T.Inv has w (also busy s)) (T.Step w (also busy s))
      (fun σ => T.Ready rank (also busy s) s σ ∧
        Known (Function.update w s (T.currCell w user has s)) s σ)
      (T.calcVisibilities call vs flag) (flag && vs.all fun v => (w v).visible = .no || has v)
      (fun σ => (T.Ready rank (also busy s) s σ ∧
        Known (Function.update w s (T.currCell w user has s)) s σ) ∧
        ∀ v ∈ vs, (σ.cell v).visible = (w v).visible) := by
  induction vs generalizing flag with
  | nil =>
    rw [List.all_nil, Bool.and_true]
    exact Steady.pure.post fun _ _ hσ => ⟨hσ, fun v hv => by cases hv⟩
  | cons v vs ih =>
    obtain ⟨hv, hvs⟩ := List.forall_mem_cons.mp hvs
    have hnot : T.isChoice v = false := by
      rcases h : T.isChoice v
      · rfl
      · have hnone := hchoices.not_value h
        rw [hchoices.mem_values.mpr hv] at hnone
        cases hnone
    have htail := (ih hvs (flag && ((w v).visible = .no || has v))).frame
      (F := fun σ => (σ.cell v).visible = (w v).visible) fun _ _ _ _ h => h.visible
    refine (value_visibility hacyclic hchoices hw hcall hbusy hs hyes hv).bind ?_
    refine Steady.get (y := T.calcVisibilities call vs (flag && ((w v).visible = .no || has v)))
      (fun σ hI hσ => ?_) ((htail.congr rfl ?_).post fun σ _ hσ => ⟨hσ.1.1, ?_⟩)
    · rw [hσ.2, hI.hasValue hnot]
      by_cases hno : (w v).visible = .no
      · rw [if_neg (not_not.mpr hno), decide_eq_true hno, Bool.true_or, Bool.and_true]
      · rw [if_pos hno, decide_eq_false hno, Bool.false_or]
    · rw [List.all_cons, Bool.and_assoc]
    · exact List.forall_mem_cons.mpr ⟨hσ.2, hσ.1.2⟩

theorem visibleDefault_steady (hacyclic : T.Acyclic rank) (hchoices : T.Choices)
    (hw : T.Solves w user has) (hcall : Calls T has w rank call (rank s))
    (hbusy : ∀ p, busy p → rank s < rank p) (hs : T.isChoice s = true) (ps : List (Default S))
    (hps : ∀ p ∈ ps, p ∈ T.defaults s) :
    Steady (T.Inv has w (also busy s)) (T.Step w (also busy s))
      (fun σ => T.Ready rank (also busy s) s σ ∧ Seen T w s σ) (T.visibleDefault call ps)
      (ps.findSome? fun p => if T.condVal w p.visible = .no then none
        else (propGetSymbol p.expr).filter fun v => (w v).visible ≠ .no)
      (fun σ => T.Ready rank (also busy s) s σ ∧ Seen T w s σ) := by
  have hfinds := hcall.finds hacyclic hw.ne_mod hbusy
  induction ps with
  | nil => exact Steady.pure
  | cons p ps ih =>
    obtain ⟨hp, hps⟩ := List.forall_mem_cons.mp hps
    have hcond := ((hfinds.condCalcValue fun e he => hacyclic.defaults hp e he).post
      fun _ _ hσ => hσ.1).frame (F := Seen T w s) fun _ _ _ _ h => Seen.step h
    refine hcond.bind ?_
    rw [List.findSome?_cons]
    by_cases hno : T.condVal w p.visible = .no
    · rw [if_pos hno, if_pos hno]
      exact ih hps
    · rw [if_neg hno, if_neg hno]
      obtain ⟨v, hv, hexpr⟩ := hchoices.defaults hs hp
      rw [hexpr]
      have hget : ∀ {b : Option S} {Q : State S → Prop}, Steady (T.Inv has w (also busy s))
          (T.Step w (also busy s)) (fun σ => T.Ready rank (also busy s) s σ ∧ Seen T w s σ)
          (if (w v).visible ≠ .no then pure (some v) else T.visibleDefault call ps) b Q →
          Steady (T.Inv has w (also busy s)) (T.Step w (also busy s))
            (fun σ => T.Ready rank (also busy s) s σ ∧ Seen T w s σ)
            (do
              let σ ← get
              if (σ.cell v).visible ≠ .no then return some v else T.visibleDefault call ps) b Q :=
        fun h => Steady.get (fun σ _ hσ => by rw [hσ.2 v hv]) h
      refine hget ?_
      by_cases hvisible : (w v).visible = .no
      · have hfilter : (propGetSymbol (.symbol v)).filter (fun v => (w v).visible ≠ .no) = none :=
          Option.filter_eq_none_iff.mpr fun b hb => by cases hb; simpa using hvisible
        rw [if_neg (not_not.mpr hvisible), hfilter]
        exact ih hps
      · have hfilter : (propGetSymbol (.symbol v)).filter (fun v => (w v).visible ≠ .no) = some v :=
          Option.filter_some_pos (decide_eq_true hvisible)
        rw [if_pos hvisible, hfilter]
        exact Steady.pure

/-- The default of the choice `s`, by the visibilities of its values. -/
def defaultOf (T : Table S) (w : S → Cell S) (s : S) : Option S :=
  ((T.defaults s).findSome? fun p => if T.condVal w p.visible = .no then none
    else (propGetSymbol p.expr).filter fun v => (w v).visible ≠ .no).or
  ((T.values s).find? fun v => (w v).visible ≠ .no)

def chosenOf (T : Table S) (w : S → Cell S) (user : S → SymbolValue S) (s : S) : Option S :=
  ((user s).chosen.filter fun v => (w v).visible ≠ .no).or (defaultOf T w s)

theorem chosenVal_eq (hacyclic : T.Acyclic rank) (hchoices : T.Choices)
    (huser : ∀ v ∈ (user s).chosen, v ∈ T.values s) (hw : T.Solves w user has)
    (hs : T.isChoice s = true) (hyes : (T.currCell w user has s).curr.tri = .yes) (c : Cell S) :
    T.chosenVal (Function.update w s (T.currCell w user has s)) user has s c = { c with
      hasValue := c.hasValue && (T.values s).all fun v => (w v).visible = .no || has v
      curr := { c.curr with
        tri := if chosenOf T w user s = none then .no else c.curr.tri
        chosen := chosenOf T w user s } } := by
  have hvisible := fun v (hv : v ∈ T.values s) => hw.visible_value hacyclic hchoices hs hv hyes
  have hbelow : Agree T (rank · < rank s) (Function.update w s (T.currCell w user has s)) w := by
    refine ⟨fun {t} ht => ?_, fun {t} ht => ?_, fun {t} ht htype => ?_, fun {t} ht htype => ?_⟩
    · rw [Function.update_of_ne fun heq : t = s => lt_irrefl _ (heq ▸ ht)]
    · rw [Function.update_of_ne fun heq : t = s => lt_irrefl _ (heq ▸ ht)]
    · have hlt := (hacyclic.modules htype).trans ht
      rw [Function.update_of_ne fun heq => lt_irrefl _ (heq ▸ hlt)]
    · rw [Function.update_of_ne fun heq : t = s => lt_irrefl _ (heq ▸ ht)]
      exact hw.ne_mod htype
  have hdefault : T.choiceDefaultVal (Function.update w s (T.currCell w user has s)) s =
      defaultOf T w s := by
    rw [choiceDefaultVal, defaultOf, List.find?_congr fun v hv => by rw [hvisible v hv]]
    congr 1
    refine findSome?_ext fun p hp => ?_
    obtain ⟨v, hv, hexpr⟩ := hchoices.defaults hs hp
    rw [hbelow.condVal fun e he t ht => hacyclic.defaults hp e he t ht, hexpr]
    show (if _ then none else Option.filter _ (some v)) = if _ then none else Option.filter _ (some v)
    rw [Option.filter_some, Option.filter_some, hvisible v hv]
  have hfilter : ((user s).chosen.filter fun v =>
      T.visibleVal (Function.update w s (T.currCell w user has s)) v ≠ .no) =
      (user s).chosen.filter fun v => (w v).visible ≠ .no := by
    rcases hchosen : (user s).chosen with _ | v
    · rfl
    · rw [Option.filter_some, Option.filter_some, hvisible v (huser v hchosen)]
  have hall : ((T.values s).all fun v =>
      T.visibleVal (Function.update w s (T.currCell w user has s)) v = .no || has v) =
      (T.values s).all fun v => (w v).visible = .no || has v := by
    rw [Bool.eq_iff_iff, List.all_eq_true, List.all_eq_true]
    exact forall₂_congr fun v hv => by rw [hvisible v hv]
  rw [chosenVal, hfilter, hdefault, hall, chosenOf]

omit [DecidableEq S] in
theorem steady_seen {α : Type} {P Q : State S → Prop} {x : Calc S α} {a : α}
    (h : Steady (T.Inv has w (also busy s)) (T.Step w busy) P x a Q) :
    Steady (T.Inv has w (also busy s)) (T.Step w busy) (fun σ => Seen T w s σ ∧ P σ) x a
      (fun σ => Seen T w s σ ∧ Q σ) :=
  ((h.frame fun _ _ _ _ h => Seen.step h).pre fun _ _ h => h.symm).post fun _ _ h => h.symm

theorem own_choiceDefault (hacyclic : T.Acyclic rank) (hchoices : T.Choices) (hw : T.Solves w user has)
    (hcall : Calls T has w rank call (rank s)) (hbusy : ∀ p, busy p → rank s < rank p)
    (hs : T.isChoice s = true) :
    Steady (T.Inv has w (also busy s)) (T.Step w busy) (fun σ => Seen T w s σ ∧ At T w rank busy s c σ)
      (T.symChoiceDefault call s) (defaultOf T w s) (fun σ => Seen T w s σ ∧ At T w rank busy s c σ) := by
  have hrun := visibleDefault_steady hacyclic hchoices hw hcall hbusy hs (T.defaults s) fun _ h => h
  have hrun' : Steady (T.Inv has w (also busy s)) (T.Step w busy)
      (fun σ => Seen T w s σ ∧ At T w rank busy s c σ) (T.visibleDefault call (T.defaults s)) _
      (fun σ => Seen T w s σ ∧ At T w rank busy s c σ) :=
    (((hrun.frame fun _ _ _ _ => At.step).pre fun σ _ hσ => ⟨⟨hσ.2.1, hσ.1⟩, hσ.2⟩).rel
      fun _ _ => Step.mono).post fun σ _ hσ => ⟨hσ.1.2, hσ.2⟩
  refine hrun'.bind (Steady.get (y := pure (defaultOf T w s)) (fun σ _ hσ => ?_) Steady.pure)
  have hfind : ((T.values s).find? fun v => (σ.cell v).visible ≠ .no) =
      (T.values s).find? fun v => (w v).visible ≠ .no :=
    List.find?_congr fun v hv => by rw [hσ.1 v hv]
  rw [hfind]
  rfl

/-- `sym_calc_choice` of the choice under way -/
theorem own_calcChoice (hacyclic : T.Acyclic rank) (hchoices : T.Choices)
    (huser : ∀ v ∈ (user s).chosen, v ∈ T.values s)
    (hw : T.Solves w user has) (hcall : Calls T has w rank call (rank s))
    (hbusy : ∀ p, busy p → rank s < rank p) (hs : T.isChoice s = true)
    (hyes : (T.currCell w user has s).curr.tri = .yes) (hc : c = T.currCell w user has s) :
    Steady (T.Inv has w (also busy s)) (T.Step w busy) (At T w rank busy s c)
      (T.symCalcChoice user call s) (chosenOf T w user s)
      (At T w rank busy s { c with
        hasValue := c.hasValue && (T.values s).all fun v => (w v).visible = .no || has v
        curr := { c.curr with tri := if chosenOf T w user s = none then .no else c.curr.tri } }) := by
  have hnb : ¬busy s := fun h => lt_irrefl _ (hbusy s h)
  set flag := (T.values s).all fun v => (w v).visible = .no || has v
  have hcalled : Steady (T.Inv has w (also busy s)) (T.Step w busy) (At T w rank busy s c)
      (T.calcVisibilities call (T.values s) c.hasValue) (c.hasValue && flag)
      (fun σ => Seen T w s σ ∧ At T w rank busy s c σ) := by
    have hrun := (calcVisibilities_steady hacyclic hchoices hw hcall hbusy hs hyes (fun _ h => h)
      c.hasValue).post fun _ _ hσ => hσ.2
    refine ((hrun.frame fun _ _ _ _ => At.step).pre fun σ hI hσ => ⟨⟨hσ.1, hI.under (.inl rfl), ?_⟩, hσ⟩).rel
      fun _ _ => Step.mono
    rw [Function.update_self, ← hc]
    exact hσ.2.curr
  have hhas : Steady (T.Inv has w (also busy s)) (T.Step w busy) (At T w rank busy s c)
      (change s fun c' => { c' with hasValue := c'.hasValue && (c.hasValue && flag) }) ()
      (At T w rank busy s { c with hasValue := c.hasValue && flag }) := by
    have hself : (c.hasValue && (c.hasValue && flag)) = (c.hasValue && flag) := by
      rw [← Bool.and_assoc, Bool.and_self]
    refine (steady_at (f := fun c' => { c' with hasValue := c'.hasValue && (c.hasValue && flag) }) hnb
      (fun _ => rfl) (fun h => by rw [hs] at h; cases h) (fun _ => .inl rfl) fun c' h =>
        ⟨by rw [h.eq], fun hvalue => by rw [h.same hvalue], h.visible, h.write⟩).post fun σ _ hσ => ?_
    rw [← hself]
    exact hσ
  have hfilter : ∀ σ, Seen T w s σ → ((user s).chosen.filter fun v => (σ.cell v).visible ≠ .no) =
      (user s).chosen.filter fun v => (w v).visible ≠ .no := by
    intro σ hσ
    rcases hchosen : (user s).chosen with _ | v
    · rfl
    · rw [Option.filter_some, Option.filter_some, hσ v (huser v hchosen)]
  refine Steady.get (fun σ _ hσ => by rw [hσ.2.hasValue]) ?_
  refine hcalled.bind ((steady_seen hhas).bind ?_)
  rcases hu : (user s).chosen.filter (fun v => (w v).visible ≠ .no) with _ | v
  · have hchosen : chosenOf T w user s = defaultOf T w s := by rw [chosenOf, hu, Option.none_or]
    refine Steady.get (y := do
      let def_sym ← T.symChoiceDefault call s
      if def_sym = none then
        change s fun c => { c with curr := { c.curr with tri := .no } }
        return none
      else return def_sym) (fun σ _ hσ => by rw [hfilter σ hσ.1, hu]) ?_
    refine (own_choiceDefault hacyclic hchoices hw hcall hbusy hs).bind ?_
    rw [hchosen]
    by_cases hnone : defaultOf T w s = none
    · rw [if_pos hnone, if_pos hnone, hnone]
      exact ((own_curr hnb fun curr => { curr with tri := .no }).pre fun _ _ hσ => hσ.2).bind Steady.pure
    · rw [if_neg hnone, if_neg hnone]
      exact Steady.pure.post fun _ _ hσ => hσ.2
  · have hchosen : chosenOf T w user s = some v := by rw [chosenOf, hu, Option.some_or]
    refine Steady.get (y := pure (some v)) (fun σ _ hσ => by rw [hfilter σ hσ.1, hu]) ?_
    rw [hchosen, if_neg (Option.some_ne_none v)]
    exact Steady.pure.post fun _ _ hσ => hσ.2

/-! ### The whole calculation -/

theorem own_calcChosen (hacyclic : T.Acyclic rank) (hchoices : T.Choices)
    (huser : ∀ v ∈ (user s).chosen, v ∈ T.values s)
    (hw : T.Solves w user has) (hcall : Calls T has w rank call (rank s))
    (hbusy : ∀ p, busy p → rank s < rank p) :
    Steady (T.Inv has w (also busy s)) (T.Step w busy) (At T w rank busy s (T.currCell w user has s))
      (T.calcChosen user call s) () (At T w rank busy s (T.chosenCell w user has s)) := by
  have hnb : ¬busy s := fun h => lt_irrefl _ (hbusy s h)
  rw [chosenCell]
  by_cases hchoice : T.isChoice s = true ∧ (T.currCell w user has s).curr.tri = .yes
  · refine Steady.get (fun σ _ hσ => by rw [hσ.2.curr, if_pos hchoice]) ?_
    dsimp only
    rw [if_pos hchoice, chosenVal_eq hacyclic hchoices huser hw hchoice.1 hchoice.2]
    exact (own_calcChoice hacyclic hchoices huser hw hcall hbusy hchoice.1 hchoice.2 rfl).bind
      (own_curr hnb fun curr => { curr with chosen := chosenOf T w user s })
  · refine Steady.get (y := pure ()) (fun σ _ hσ => by rw [hσ.2.curr, if_neg hchoice]) ?_
    rw [if_neg hchoice]
    exact Steady.pure

/-- From the visibility to the checked value -/
theorem own_value (hacyclic : T.Acyclic rank) (hchoices : T.Choices)
    (huser : ∀ v ∈ (user s).chosen, v ∈ T.values s)
    (hw : T.Solves w user has) (hcall : Calls T has w rank call (rank s))
    (hbusy : ∀ p, busy p → rank s < rank p) (htype : T.type s ≠ none) (curr : SymbolValue S) :
    Steady (T.Inv has w (also busy s)) (T.Step w busy)
      (fun σ => At T w rank busy s { T.visibleCell w has s with curr } σ ∧ ((w s).visible ≠ .no →
        ∀ ch, T.choiceOf s = some ch → (σ.cell ch).valid = true))
      (do
        T.calcCurr user call s
        T.calcChosen user call s
        T.symValidateRange call s) ()
      (At T w rank busy s (T.chosenCell w user has s)) := by
  have hc : (T.visibleCell w has s).visible = (w s).visible :=
    (visibilityVal_visible s _).trans (hw.visible htype).symm
  refine (own_calcCurr (c := { T.visibleCell w has s with curr }) hacyclic hchoices hw hcall hbusy hc).bind ?_
  rw [unranged]
  by_cases htri : T.IsTri s
  · have hcurr : T.triVal w user s { T.visibleCell w has s with curr } = T.currCell w user has s := by
      rw [currCell, if_pos htri]
      rfl
    rw [if_pos htri, hcurr]
    refine (own_calcChosen hacyclic hchoices huser hw hcall hbusy).bind ?_
    refine (own_validateRange hacyclic hw hcall hbusy).post fun σ _ hσ => ?_
    have hnot : ¬(T.type s = some .int ∨ T.type s = some .hex) := by
      rcases htri with h | h <;> rw [h] <;> rintro (h | h) <;> cases h
    rwa [validVal, if_neg hnot] at hσ
  · have hnot : ¬T.isChoice s = true := fun h => htri (hchoices.isTri h)
    have hchosen : T.chosenCell w user has s = T.textVal w user s (T.visibleCell w has s) := by
      rw [chosenCell, currCell, if_neg htri, if_neg fun h => hnot h.1]
    rw [if_neg htri, hchosen]
    refine Steady.bind (Q := At T w rank busy s { T.visibleCell w has s with
      write := (T.newTextVal w user s (T.visibleCell w has s)).2
      curr := { symbolEmpty with val := (T.newTextVal w user s (T.visibleCell w has s)).1 } })
      (Steady.get (y := pure ()) (fun σ _ _ => if_neg fun h => hnot h.1) Steady.pure) ?_
    exact own_validateRange hacyclic hw hcall hbusy

omit [DecidableEq S] in
theorem visibleCell_of_fresh {c : Cell S} (h : T.Fresh has s c) :
    { T.visibilityVal w s { c with valid := true, write := false } with
      write := (T.visibilityVal w s { c with valid := true, write := false }).visible ≠ .no } =
      { T.visibleCell w has s with curr := c.curr } := by
  by_cases hvalue : T.isChoiceValue s = true
  · obtain ⟨hdir, hrev, himp⟩ := h.value hvalue
    rw [visibleCell, visibilityVal, visibilityVal, if_pos hvalue, if_pos hvalue]
    dsimp only
    rw [hdir, hrev, himp, h.hasValue]
  · rw [visibleCell, visibilityVal, visibilityVal, if_neg hvalue, if_neg hvalue]
    dsimp only
    rw [h.hasValue]

theorem own_newval (hacyclic : T.Acyclic rank) (hchoices : T.Choices)
    (huser : ∀ v ∈ (user s).chosen, v ∈ T.values s)
    (hw : T.Solves w user has) (hcall : Calls T has w rank call (rank s))
    (hbusy : ∀ p, busy p → rank s < rank p) (htype : T.type s ≠ none) {c : Cell S}
    (hfresh : T.Fresh has s c) :
    Steady (T.Inv has w (also busy s)) (T.Step w busy) (At T w rank busy s { c with valid := true })
      (T.calcNewval user call s) () (At T w rank busy s (T.chosenCell w user has s)) := by
  have hnb : ¬busy s := fun h => lt_irrefl _ (hbusy s h)
  have hstart : Steady (T.Inv has w (also busy s)) (T.Step w busy)
      (At T w rank busy s { c with valid := true }) (change s fun c => { c with write := false }) ()
      (At T w rank busy s { c with valid := true, write := false }) := by
    refine steady_at hnb (fun _ => rfl) (fun _ _ => rfl) (fun _ => .inl rfl) fun c' h => ?_
    exact ⟨by rw [h.eq], fun hvalue => by rw [h.same hvalue], h.visible, fun h => h⟩
  refine hstart.bind ((own_visibility hacyclic hchoices hw hcall hbusy htype).bind ?_)
  set c' := T.visibilityVal w s { c with valid := true, write := false } with hc'
  set curr := if T.IsTri s then (symbolNo : SymbolValue S) else symbolEmpty
  have hvisible : c'.visible = (w s).visible :=
    (visibilityVal_visible s _).trans (hw.visible htype).symm
  have hwrite : c'.write = false := by
    rw [hc', visibilityVal]
    by_cases hvalue : T.isChoiceValue s = true
    · rw [if_pos hvalue]
    · rw [if_neg hvalue]
  have hchange : Steady (T.Inv has w (also busy s)) (T.Step w busy) (At T w rank busy s c')
      (change s fun c => { c with write := c.write || c.visible ≠ .no, curr }) ()
      (At T w rank busy s { T.visibleCell w has s with curr }) := by
    have hcell : { c' with write := c'.write || c'.visible ≠ .no, curr } =
        { T.visibleCell w has s with curr } := by
      rw [hwrite, Bool.false_or]
      exact congrArg (fun c : Cell S => { c with curr }) (visibleCell_of_fresh (w := w) hfresh)
    rw [← hcell]
    refine steady_at (f := fun c => { c with write := c.write || c.visible ≠ .no, curr }) hnb
      (fun _ => rfl) (fun _ _ => rfl) (fun _ => .inl rfl) fun x h => ?_
    have heq : x.visible = c'.visible := (h.visible_eq hvisible).trans hvisible.symm
    rw [heq]
    refine ⟨by rw [h.eq], fun hvalue => by rw [h.same hvalue], .inl rfl, fun hor => ?_⟩
    exact Bool.or_eq_true_iff.mpr ((Bool.or_eq_true_iff.mp hor).imp_left h.write)
  have hprompts : (w s).visible ≠ .no → T.prompts s ≠ [] := by
    intro hne hnil
    refine hne ((hw.visible htype).trans ?_)
    rw [visibleVal, promptsVal, hnil, List.foldl_nil, noModPrompt]
    exact if_neg fun h => Tristate.noConfusion h.1
  have hframed := hchange.frame (F := fun σ => T.prompts s ≠ [] → ∀ ch, T.choiceOf s = some ch →
    (σ.cell ch).valid = true) fun _ _ _ _ h hσ hne ch hch => h.valid (hσ hne ch hch)
  have hrest := own_value hacyclic hchoices huser hw hcall hbusy htype curr
  exact hframed.bind (hrest.pre fun σ _ hσ => ⟨hσ.1, fun hne => hσ.2 (hprompts hne)⟩)

theorem Inv.start (hI : T.Inv has w busy σ) (hs : (σ.cell s).valid = false) :
    T.Inv has w (also busy s)
      { σ with cell := Function.update σ.cell s { σ.cell s with valid := true } } := by
  set c : Cell S := { σ.cell s with valid := true } with hc
  have hother : ∀ {t}, t ≠ s → Function.update σ.cell s c t = σ.cell t := fun h =>
    Function.update_of_ne h c σ.cell
  have hself : Function.update σ.cell s c s = c := Function.update_self s c σ.cell
  have hne : ∀ {t}, (Function.update σ.cell s c t).valid = false → t ≠ s := by
    rintro t ht rfl
    rw [hself] at ht
    cases ht
  have hne' : ∀ {t}, (σ.cell t).valid = true → t ≠ s := by
    rintro t ht rfl
    rw [hs] at ht
    cases ht
  refine ⟨fun {t} ht h => ?_, fun {t} h => ?_, fun t => ?_, fun {t} ht => ?_, fun {t} ht => ?_,
    fun h hbusy => ?_, fun h => ?_⟩ <;> dsimp only at *
  · have hts : t ≠ s := fun heq => ht (.inl heq)
    rw [hother hts] at h ⊢
    exact hI.settled (fun hb => ht (.inr hb)) h
  · have hts := hne h
    rw [hother hts] at h ⊢
    exact hI.fresh h
  · rw [hother (hne' (hI.const t))]
    exact hI.const t
  · by_cases hts : t = s
    · rw [hts, hself]
    · rw [hother hts]
      exact hI.under (ht.resolve_left hts)
  · by_cases hts : t = s
    · rw [hts, hself]
      exact hI.hasValue (hts ▸ ht)
    · rw [hother hts]
      exact hI.hasValue ht
  · have hts : T.modules ≠ s := fun heq => hbusy (.inl heq)
    rw [hother hts] at h
    exact hI.modulesVal h fun hb => hbusy (.inr hb)
  · have hts := hne h
    rw [hother hts] at h ⊢
    exact hI.modulesOld h

omit [DecidableEq S] in
theorem Inv.setModulesVal (hI : T.Inv has w (also busy s) σ) {m : Tristate}
    (hm : s ≠ T.modules → m = σ.modulesVal) : T.Inv has w (also busy s) ⟨σ.cell, m⟩ := by
  refine ⟨hI.settled, hI.fresh, hI.const, hI.under, hI.hasValue, fun h hbusy => ?_, fun h => ?_⟩
  · exact (hm fun heq => hbusy (.inl heq.symm)).trans (hI.modulesVal h hbusy)
  · refine (hm ?_).trans (hI.modulesOld h)
    rintro rfl
    exact absurd (hI.under (.inl rfl)) (by rw [h]; exact Bool.false_ne_true)

omit [DecidableEq S] in
theorem Inv.finish (hI : T.Inv has w (also busy s) σ) (hs : T.Settled w s (σ.cell s))
    (hmodules : s = T.modules → σ.modulesVal = (w T.modules).curr.tri) : T.Inv has w busy σ := by
  refine ⟨fun {t} ht h => ?_, hI.fresh, hI.const, fun h => hI.under (.inr h), hI.hasValue,
    fun h hbusy => ?_, hI.modulesOld⟩
  · by_cases hts : t = s
    · rw [hts]
      exact hs
    · exact hI.settled (fun hb => ht (hb.resolve_left hts)) h
  · by_cases hms : T.modules = s
    · exact hmodules hms.symm
    · exact hI.modulesVal h fun hb => hbusy (hb.resolve_left hms)

omit [DecidableEq S] in
theorem unsetVal_write {c : Cell S} (hc : c.write = true) : (T.unsetVal w s c).2 = true := by
  rw [unsetVal, hc, Bool.true_or]
  by_cases hchoice : T.isChoice s = true
  · rw [if_pos hchoice]
  rw [if_neg hchoice]
  dsimp only
  split_ifs
  · rfl
  · rcases T.defaultVal w s with _ | p
    · rfl
    · rfl

/-- A symbol is written if it can be seen. -/
theorem currCell_write (hvisible : T.visibleVal w s ≠ .no) : (T.currCell w user has s).write = true := by
  have hwrite : (T.visibleCell w has s).write = true := by
    rw [visibleCell]
    exact decide_eq_true (by rwa [visibilityVal_visible])
  rw [currCell]
  split_ifs
  · show (T.newTriVal w user s _).2 = true
    rw [newTriVal]
    split_ifs
    · exact hwrite
    · exact hwrite
    · exact unsetVal_write hwrite
  · show (T.newTextVal w user s _).2 = true
    rw [newTextVal]
    split_ifs
    · exact hwrite
    · rcases (T.defaultVal w s).bind fun p => propGetSymbol p.1.expr with _ | ds
      · exact hwrite
      · rfl

/-- The cell that is left behind is settled. -/
theorem settled_of_frame (hchoices : T.Choices) (hw : T.Solves w user has) (htype : T.type s ≠ none)
    {c : Cell S} (h : T.Frame w s (T.chosenCell w user has s) c) :
    T.Settled w s (if T.auto s then { c with write := false } else c) := by
  have hrule := hw.eq_rule htype
  rw [rule, if_neg htype] at hrule
  dsimp only at hrule
  by_cases hvalue : T.isChoiceValue s = true
  · obtain ⟨ch, hch⟩ := Option.isSome_iff_exists.mp hvalue
    have hauto := hchoices.auto hch
    have hnot : ¬(T.isChoice s = true ∧ (T.currCell w user has s).curr.tri = .yes) := fun hs => by
      rw [hchoices.not_value hs.1] at hch
      cases hch
    have hcell : w s = T.chosenCell w user has s := by
      rw [hrule, if_neg (by rw [hauto]; exact Bool.false_ne_true)]
    rw [if_neg (by rw [hauto]; exact Bool.false_ne_true)]
    have hvisible : c.visible = (w s).visible := h.visible_eq (by rw [hcell])
    refine ⟨?_, fun hs => ?_, fun _ hne => h.write ?_⟩
    · rw [h.eq, ← hcell, hvisible]
    · rw [hvalue] at hs
      cases hs
    · rw [chosenCell, if_neg hnot]
      exact currCell_write (by rwa [← hw.visible htype])
  · have hnot : T.isChoiceValue s = false := Bool.eq_false_iff.mpr hvalue
    rw [h.same hnot]
    have hcell : w s = if T.auto s then { T.chosenCell w user has s with write := false }
        else T.chosenCell w user has s := hrule
    rw [← hcell]
    exact ⟨rfl, fun _ => rfl, fun hs => absurd hs hvalue⟩

/-- The cells that `writeValues` leaves behind. -/
def written (T : Table S) (s : S) (σ : State S) (v : S) : Cell S :=
  if T.isChoice s ∧ v ∈ T.values s ∧ (σ.cell s).write ∧ (σ.cell v).visible ≠ .no then
    { σ.cell v with write := true }
  else σ.cell v

theorem written_self (hchoices : T.Choices) : T.written s σ s = σ.cell s := by
  refine if_neg fun h => ?_
  have hnone := hchoices.not_value h.1
  rw [hchoices.mem_values.mpr h.2.1] at hnone
  cases hnone

theorem frame_written (hchoices : T.Choices) (v : S) : T.Frame w v (σ.cell v) (T.written s σ v) := by
  by_cases hv : T.isChoice s ∧ v ∈ T.values s ∧ (σ.cell s).write ∧ (σ.cell v).visible ≠ .no
  · have hvalue : T.isChoiceValue v = true := by
      rw [isChoiceValue, hchoices.mem_values.mpr hv.2.1]
      rfl
    rw [written, if_pos hv]
    refine ⟨rfl, fun h => ?_, .inl rfl, fun _ => rfl⟩
    rw [hvalue] at h
    cases h
  · rw [written, if_neg hv]
    exact Frame.refl _

theorem rest_run (hchoices : T.Choices) (old : SymbolValue S) :
    (do
      T.setModulesVal s old
      T.writeValues s
      change s fun c => if T.auto s then { c with write := false } else c : Calc S Unit) σ =
      some ((), ⟨Function.update (T.written s σ) s
        (if T.auto s then { σ.cell s with write := false } else σ.cell s),
        if old ≠ (σ.cell s).curr ∧ s = T.modules then (σ.cell s).curr.tri else σ.modulesVal⟩) := by
  have htail : ∀ m, (do
      T.writeValues s
      change s fun c => if T.auto s then { c with write := false } else c : Calc S Unit)
      ⟨σ.cell, m⟩ = some ((), ⟨Function.update (T.written s σ) s
        (if T.auto s then { σ.cell s with write := false } else σ.cell s), m⟩) := by
    intro m
    show some ((), (⟨Function.update (T.written s σ) s
      (if T.auto s then { T.written s σ s with write := false } else T.written s σ s), m⟩ : State S)) = _
    rw [written_self hchoices]
  show (do
    T.writeValues s
    change s fun c => if T.auto s then { c with write := false } else c : Calc S Unit)
    (if old ≠ (σ.cell s).curr ∧ s = T.modules then { σ with modulesVal := (σ.cell s).curr.tri }
      else σ) = _
  by_cases hcond : old ≠ (σ.cell s).curr ∧ s = T.modules
  · rw [if_pos hcond, if_pos hcond]
    exact htail _
  · rw [if_neg hcond, if_neg hcond]
    exact htail _

/-- The cell of a symbol that `config` does not declare. -/
theorem calcUnknown_run (hI : T.Inv has w busy σ) (hw : T.Solves w user has) (hnb : ¬busy s)
    (hs : (σ.cell s).valid = false) (htype : T.type s = none) :
    ∃ σ', T.calcInvalid user call s σ = some ((), σ') ∧ T.Inv has w busy σ' ∧ T.Step w busy σ σ' ∧
      (σ'.cell s).valid = true := by
  have hI1 := hI.start hs
  set c1 : Cell S := { σ.cell s with valid := true } with hc1
  set σ1 : State S := { σ with cell := Function.update σ.cell s c1 } with hσ1
  have hself1 : σ1.cell s = c1 := Function.update_self s c1 σ.cell
  have hstep1 : T.Step w busy σ σ1 := Step.change hnb (fun _ => rfl) (.inl rfl)
  set c2 : Cell S := { c1 with curr := ⟨.no, T.name s, none⟩ }
  have hI2 := hI1.change (c := c2) rfl fun _ => by rw [hself1]
  have hstep2 : T.Step w busy σ1 { σ1 with cell := Function.update σ1.cell s c2 } :=
    Step.change hnb (fun _ => rfl) (.inl (by rw [hself1]))
  obtain ⟨hno, hunknown⟩ := (hI.fresh hs).unknown htype
  have hsolution : w s = ⟨true, has s, false, ⟨.no, T.name s, none⟩, .no, .no, .no, .no⟩ := by
    have hconst : ∀ t, s ≠ T.const t := by
      rintro t rfl
      rw [hI.const t] at hs
      cases hs
    rw [hw.rule s hconst, rule, if_pos htype]
  have hcell : c2 = w s := by
    rw [hsolution, ← (hI.fresh hs).hasValue]
    show ({ σ.cell s with valid := true, curr := _ } : Cell S) = _
    rw [hunknown]
  refine ⟨{ σ1 with cell := Function.update σ1.cell s c2 }, ?_, hI2.finish ?_ fun hmodules => ?_,
    trans_of _ hstep1 hstep2, ?_⟩
  · show (if T.type s = none then _ else _ : Calc S Unit) σ1 = _
    rw [if_pos htype]
    show some ((), { σ1 with cell := Function.update σ1.cell s { σ1.cell s with curr := _ } }) = _
    rw [hself1]
  · show T.Settled w s (Function.update σ1.cell s c2 s)
    rw [Function.update_self, hcell]
    exact ⟨rfl, fun _ => rfl, fun _ hne => absurd (by rw [hsolution]) hne⟩
  · show σ.modulesVal = _
    rw [← hmodules, hsolution, ← hno]
    subst hmodules
    exact hI.modulesOld hs
  · show (Function.update σ1.cell s c2 s).valid = true
    rw [Function.update_self]

theorem calcInvalid_run (hacyclic : T.Acyclic rank) (hchoices : T.Choices)
    (huser : ∀ v ∈ (user s).chosen, v ∈ T.values s)
    (hw : T.Solves w user has) (hcall : Calls T has w rank call (rank s))
    (hbusy : ∀ p, busy p → rank s < rank p) (hI : T.Inv has w busy σ) (hready : T.Ready rank busy s σ)
    (hs : (σ.cell s).valid = false) :
    ∃ σ', T.calcInvalid user call s σ = some ((), σ') ∧ T.Inv has w busy σ' ∧ T.Step w busy σ σ' ∧
      (σ'.cell s).valid = true := by
  have hnb : ¬busy s := fun h => lt_irrefl _ (hbusy s h)
  by_cases htype : T.type s = none
  · exact calcUnknown_run hI hw hnb hs htype
  have hI1 := hI.start hs
  set c1 : Cell S := { σ.cell s with valid := true } with hc1
  set σ1 : State S := { σ with cell := Function.update σ.cell s c1 } with hσ1
  have hself1 : σ1.cell s = c1 := Function.update_self s c1 σ.cell
  have hstep1 : T.Step w busy σ σ1 := Step.change hnb (fun _ => rfl) (.inl rfl)
  have hready1 : T.Ready rank (also busy s) s σ1 := by
    refine Ready.update (hready.imp_left fun ⟨hvalid, hnot⟩ => ⟨hvalid, ?_⟩)
    rintro (heq | hb)
    · rw [heq, hs] at hvalid
      cases hvalid
    · exact hnot hb
  have hat1 : At T w rank busy s { σ.cell s with valid := true } σ1 :=
    ⟨hready1, by rw [hself1]; exact Frame.refl _⟩
  obtain ⟨σ2, hrun, hI2, hstep2, hat2⟩ := own_newval hacyclic hchoices huser hw hcall hbusy htype
    (hI.fresh hs) σ1 hI1 hat1
  set c5 : Cell S := if T.auto s then { σ2.cell s with write := false } else σ2.cell s with hc5
  set modulesVal := if (σ.cell s).curr ≠ (σ2.cell s).curr ∧ s = T.modules then (σ2.cell s).curr.tri
    else σ2.modulesVal with hmodulesVal
  have hne : s ≠ T.modules → modulesVal = σ2.modulesVal := fun hne => if_neg fun h => hne h.2
  have hvalid : c5.valid = true ∧ c5.visible = (σ2.cell s).visible ∧
      c5.hasValue = (σ2.cell s).hasValue := by
    rw [hc5]
    split_ifs
    · exact ⟨hI2.under (.inl rfl), rfl, rfl⟩
    · exact ⟨hI2.under (.inl rfl), rfl, rfl⟩
  obtain ⟨hI4, hstep4⟩ : T.Inv has w (also busy s) ⟨T.written s σ2, σ2.modulesVal⟩ ∧
      T.Step w (also busy s) σ2 ⟨T.written s σ2, σ2.modulesVal⟩ :=
    hI2.frame hchoices (frame_written hchoices) rfl
  have hself4 : T.written s σ2 s = σ2.cell s := written_self hchoices
  have hI5 := hI4.change (c := c5) hvalid.1 fun _ => hvalid.2.2.trans (by rw [← hself4])
  have hstep5 : T.Step w busy ⟨T.written s σ2, σ2.modulesVal⟩
      ⟨Function.update (T.written s σ2) s c5, σ2.modulesVal⟩ :=
    Step.change hnb (fun _ => hvalid.1) (.inl (hvalid.2.1.trans (by rw [← hself4])))
  have hstep : T.Step w busy σ ⟨Function.update (T.written s σ2) s c5, σ2.modulesVal⟩ :=
    trans_of _ (trans_of _ (trans_of _ hstep1 hstep2) hstep4.mono) hstep5
  have hsettled : T.Settled w s c5 := settled_of_frame hchoices hw htype hat2.2
  refine ⟨⟨Function.update (T.written s σ2) s c5, modulesVal⟩, ?_, ?_, ?_, ?_⟩
  · show (if T.type s = none then _ else _ : Calc S Unit) σ1 = _
    rw [if_neg htype]
    show (T.calcNewval user call s σ1).bind _ = _
    rw [hrun]
    exact rest_run hchoices (σ.cell s).curr
  · refine (hI5.setModulesVal hne).finish ?_ fun hmodules => ?_
    · show T.Settled w s (Function.update (T.written s σ2) s c5 s)
      rw [Function.update_self]
      exact hsettled
    · show modulesVal = _
      have hcurr : (σ2.cell s).curr = (w s).curr := by
        rw [← hsettled.curr, hc5]
        split_ifs
        · rfl
        · rfl
      rw [hmodulesVal]
      by_cases hchanged : (σ.cell s).curr ≠ (σ2.cell s).curr ∧ s = T.modules
      · rw [if_pos hchanged, hcurr, hmodules]
      · rw [if_neg hchanged]
        have hsame : (σ.cell s).curr = (σ2.cell s).curr := by
          by_contra hnot
          exact hchanged ⟨hnot, hmodules⟩
        have hmodules1 : (σ1.cell T.modules).valid = true := by rw [← hmodules, hself1]
        rw [hstep2.modulesVal hmodules1, ← hmodules, ← hcurr, ← hsame]
        subst hmodules
        exact hI.modulesOld hs
  · refine ⟨hstep.frame, hstep.valid, hstep.visible, fun h => ?_⟩
    have hms : s ≠ T.modules := by
      rintro rfl
      rw [hs] at h
      cases h
    exact (hne hms).trans (hstep.modulesVal h)
  · show (Function.update (T.written s σ2) s c5 s).valid = true
    rw [Function.update_self]
    exact hvalid.1

omit [DecidableEq S] in
theorem Calls.mono {k k' : ℕ} (hk : k ≤ k') (h : Calls T has w rank call k') :
    Calls T has w rank call k := ⟨fun ht => h.run (ht.trans_le hk), h.valid⟩

/-- A depth greater than the rank of the symbol is enough. -/
theorem calls_symCalcValue (hacyclic : T.Acyclic rank) (hchoices : T.Choices)
    (huser : ∀ s, ∀ v ∈ (user s).chosen, v ∈ T.values s) (hw : T.Solves w user has) (n : ℕ) :
    Calls T has w rank (T.symCalcValue user n) n := by
  have hvalid : ∀ n t (σ : State S), (σ.cell t).valid = true →
      T.symCalcValue user n t σ = some ((), σ) := by
    rintro (_ | n) t σ h
    all_goals
      show (if (σ.cell t).valid = true then (pure () : Calc S Unit) else _) σ = _
      rw [if_pos h]
      rfl
  induction n with
  | zero => exact ⟨fun ht => absurd ht (Nat.not_lt_zero _), hvalid 0 _ _⟩
  | succ n ih =>
    refine ⟨fun {busy t} ht hbusy σ hI hready => ?_, hvalid (n + 1) _ _⟩
    rcases hs : (σ.cell t).valid with _ | _
    case true => exact ⟨σ, hvalid (n + 1) t σ hs, hI, refl_of _ σ, hs⟩
    obtain ⟨σ', hrun, h⟩ := calcInvalid_run hacyclic hchoices (huser t) hw (ih.mono (Nat.le_of_lt_succ ht))
      hbusy hI hready hs
    refine ⟨σ', ?_, h⟩
    show (if (σ.cell t).valid = true then _ else _ : Calc S Unit) σ = _
    rw [if_neg (by rw [hs]; exact Bool.false_ne_true)]
    exact hrun

end own

end Dir842.Kconfig.Table
