import Dir842.Kconfig.Session

/-!
# Setting values (`sym_set_tristate_value`, `sym_toggle_tristate_value`)

`sym_set_tristate_value` takes a value that is in the range that the symbol has now. The settings
then change and all values are calculated anew. They could change the range, but what the range is
made of is below the symbol, and nothing below it sees the settings that have changed.
-/

namespace Dir842.Kconfig.Table

variable {S : Type} [DecidableEq S] (T : Table S)

def symTristateWithinRange (s : S) (σ : State S) (val : Tristate) : Bool :=
  let c := σ.cell s
  let type := T.symGetType s c.visible σ.modulesVal
  if c.visible = .no then false
  else if type ≠ some .boolean ∧ type ≠ some .tristate then false
  else if type = some .boolean ∧ val = .mod then false
  else if c.visible ≤ c.revDep then false
  else if c.implied = .yes ∧ val = .mod then false
  else if T.isChoiceValue s ∧ c.visible = .yes then val = .yes
  else c.revDep ≤ val ∧ val ≤ c.visible

/-- Setting a value of a choice also sets the choice. -/
def triUser (s : S) (val : Tristate) (user : S → SymbolValue S) (t : S) : SymbolValue S :=
  if t = s then { user s with tri := val }
  else if val = .yes ∧ T.choiceOf s = some t then { user t with chosen := some s }
  else user t

/-- Setting a value of a choice also resets the new flag of the choice and of all other values. -/
def triFlags (s : S) (val : Tristate) (σ : State S) (t : S) : Bool :=
  flags σ t || t = s || (val = .yes && (T.choiceOf s).any fun cs =>
    t = cs || t ∈ T.values cs && (σ.cell t).visible ≠ .no)

def symSetTristateValue (n : ℕ) (s : S) (val : Tristate) (σ : Session S) :
    Option (Bool × Session S) :=
  let oldval := (σ.state.cell s).curr.tri
  if oldval ≠ val ∧ ¬T.symTristateWithinRange s σ.state val then some (false, σ)
  else
    let user := T.triUser s val σ.user
    let state := T.setFlags (T.triFlags s val σ.state) σ.state
    if oldval ≠ val then
      (T.symClearAllValid user n state).map fun r => (true, ⟨user, r.2⟩)
    else some (true, ⟨user, state⟩)

def nextTri : Tristate → Tristate
  | .no => .mod
  | .mod => .yes
  | .yes => .no

/-- The loop of `sym_toggle_tristate_value`. -/
def toggleLoop (n : ℕ) (s : S) (oldval : Tristate) : ℕ → Tristate → Session S →
    Option (Tristate × Session S)
  | 0, _, _ => none
  | k + 1, newval, σ =>
    let newval := nextTri newval
    (T.symSetTristateValue n s newval σ).bind fun r =>
      if r.1 ∨ oldval = newval then some (newval, r.2) else toggleLoop n s oldval k newval r.2

def symToggleTristateValue (n : ℕ) (s : S) (σ : Session S) : Option (Tristate × Session S) :=
  let oldval := (σ.state.cell s).curr.tri
  T.toggleLoop n s oldval 3 oldval σ

/-! ### Solutions for other settings -/

section frame
variable {T} {user user' : S → SymbolValue S} {has has' : S → Bool} {w w' : S → Cell S} {rank : S → ℕ}
  {s : S}

theorem triVal_user (huser : user s = user' s) (c : Cell S) :
    T.triVal w user s c = T.triVal w user' s c := by
  rw [triVal, triVal, newTriVal, newTriVal, huser]

omit [DecidableEq S] in
theorem textVal_user (huser : user s = user' s) (c : Cell S) :
    T.textVal w user s c = T.textVal w user' s c := by
  rw [textVal, textVal, newTextVal, newTextVal, huser]

theorem Agree.of_curr (hacyclic : T.Acyclic rank)
    (hne : ∀ {t}, T.type t = some .boolean → (w t).curr.tri ≠ .mod)
    (h : ∀ {t}, rank t < rank s → (w t).curr = (w' t).curr) : Agree T (rank · < rank s) w w' :=
  ⟨fun ht => by rw [h ht], fun ht => by rw [h ht],
    fun ht htype => by rw [h ((hacyclic.modules htype).trans ht)], fun _ => hne⟩

theorem visibleCell_congr (hacyclic : T.Acyclic rank) (h : Agree T (rank · < rank s) w w') :
    T.visibleCell w has s = T.visibleCell w' has s := by
  rw [visibleCell, visibleCell, h.visibilityVal hacyclic]

theorem currCell_congr (hacyclic : T.Acyclic rank) (hchoices : T.Choices)
    (h : Agree T (rank · < rank s) w w')
    (hchosen : ∀ c, T.choiceOf s = some c → (w c).curr.chosen = (w' c).curr.chosen)
    (huser : user s = user' s) (hhas : has s = has' s) :
    T.currCell w user has s = T.currCell w' user' has' s := by
  have hcell : T.visibleCell w' has s = T.visibleCell w' has' s := by
    rw [visibleCell, visibleCell, hhas]
  rw [h.currCell hacyclic hchoices hchosen, currCell, currCell, hcell, triVal_user huser,
    textVal_user huser]

omit [DecidableEq S] in
/-- The flags of the values of a choice have no part in which one it is. -/
theorem chosenVal_curr (huser : user s = user' s) (c : Cell S) :
    (T.chosenVal w user has s c).curr = (T.chosenVal w user' has' s c).curr := by
  rw [chosenVal, chosenVal, huser]

theorem chosenCell_congr (hacyclic : T.Acyclic rank) (hchoices : T.Choices)
    (hset : ∀ v ∈ (user s).chosen, v ∈ T.values s) (h : Agree T (rank · < rank s) w w')
    (hcurr : T.currCell w user has s = T.currCell w' user' has' s) (huser : user s = user' s) :
    (T.chosenCell w user has s).curr = (T.chosenCell w' user' has' s).curr := by
  rw [chosenCell, chosenCell, hcurr]
  by_cases hchoice : T.isChoice s = true ∧ (T.currCell w' user' has' s).curr.tri = .yes
  · have hupdate := h.update hacyclic hchoice.2 hchoice.2 rfl
    rw [if_pos hchoice, if_pos hchoice, hupdate.chosenVal hacyclic hchoices hset hchoice.1]
    exact chosenVal_curr huser _
  · rw [if_neg hchoice, if_neg hchoice]

theorem rule_curr (hs : T.type s ≠ none) :
    (T.rule w user has s).curr = (T.chosenCell w user has s).curr := by
  rw [rule, if_neg hs]
  dsimp only
  split_ifs
  · rfl
  · rfl

/-- What is set of symbols from `k` on has no part in the values below `k`. -/
theorem Solves.frame (hacyclic : T.Acyclic rank) (hchoices : T.Choices) (hset : T.Settings user)
    (h : T.Solves w user has) (h' : T.Solves w' user' has') {k : ℕ}
    (huser : ∀ t, rank t < k → user t = user' t) (hhas : ∀ t, rank t < k → has t = has' t) {t : S}
    (ht : rank t < k) : (w t).curr = (w' t).curr := by
  induction hn : rank t using Nat.strong_induction_on generalizing t with
  | _ n ih =>
    subst hn
    by_cases hconst : ∃ x, t = T.const x
    · obtain ⟨x, rfl⟩ := hconst
      rw [h.const, h'.const]
    rw [not_exists] at hconst
    rw [h.rule t hconst, h'.rule t hconst]
    by_cases htype : T.type t = none
    · rw [Table.rule, Table.rule, if_pos htype, if_pos htype]
    have hcurr : ∀ {x}, rank x < rank t → (w x).curr = (w' x).curr := fun hx => ih _ hx (hx.trans ht) rfl
    have hagree : Agree T (rank · < rank t) w w' := Agree.of_curr hacyclic h.ne_mod hcurr
    have hcell : T.currCell w user has t = T.currCell w' user' has' t :=
      currCell_congr hacyclic hchoices hagree
        (fun c hc => by rw [hcurr (hacyclic.choice hc)]) (huser t ht) (hhas t ht)
    rw [rule_curr htype, rule_curr htype]
    exact chosenCell_congr hacyclic hchoices (hset t) hagree hcell (huser t ht)

omit [DecidableEq S] in
theorem visibilityVal_flag (b : Bool) (c : Cell S) :
    T.visibilityVal w s { c with hasValue := b } = { T.visibilityVal w s c with hasValue := b } := by
  rw [visibilityVal, visibilityVal]
  split_ifs
  · rfl
  · rfl

omit [DecidableEq S] in
theorem visibleCell_flag : T.visibleCell w has' s = { T.visibleCell w has s with hasValue := has' s } := by
  have h : T.visibilityVal w s ⟨true, has' s, false, symbolEmpty, .no, .no, .no, .no⟩ =
      { T.visibilityVal w s ⟨true, has s, false, symbolEmpty, .no, .no, .no, .no⟩ with
        hasValue := has' s } :=
    visibilityVal_flag (has' s) ⟨true, has s, false, symbolEmpty, .no, .no, .no, .no⟩
  rw [visibleCell, h]
  rfl

theorem Solves.fields (h : T.Solves w user has) (hs : T.type s ≠ none) :
    (w s).visible = (T.visibleCell w has s).visible ∧ (w s).revDep = (T.visibleCell w has s).revDep ∧
      (w s).implied = (T.visibleCell w has s).implied := by
  have hcurr : (T.currCell w user has s).visible = (T.visibleCell w has s).visible ∧
      (T.currCell w user has s).revDep = (T.visibleCell w has s).revDep ∧
      (T.currCell w user has s).implied = (T.visibleCell w has s).implied := by
    rw [currCell]
    split_ifs
    · exact ⟨rfl, rfl, rfl⟩
    · exact ⟨rfl, rfl, rfl⟩
  have hchosen : (T.chosenCell w user has s).visible = (T.visibleCell w has s).visible ∧
      (T.chosenCell w user has s).revDep = (T.visibleCell w has s).revDep ∧
      (T.chosenCell w user has s).implied = (T.visibleCell w has s).implied := by
    rw [chosenCell]
    split_ifs
    · exact hcurr
    · exact hcurr
  rw [h.eq_rule hs, Table.rule, if_neg hs]
  dsimp only
  split_ifs
  · exact hchosen
  · exact hchosen

theorem chosenCell_of_not_choice (hs : T.isChoice s = false) :
    T.chosenCell w user has s = T.currCell w user has s := by
  rw [chosenCell, if_neg]
  rintro ⟨hchoice, -⟩
  rw [hs] at hchoice
  cases hchoice

omit [DecidableEq S] in
theorem type_ne_none (hs : T.IsTri s) : T.type s ≠ none := by
  rcases hs with hs | hs <;> rw [hs] <;> exact Option.some_ne_none _

theorem Solves.tri (h : T.Solves w user has) (hs : T.IsTri s) (hchoice : T.isChoice s = false) :
    (w s).curr.tri = T.finishTri s (T.visibleCell w has s) (w T.modules).curr.tri
      (T.newTriVal w user s (T.visibleCell w has s)).1 := by
  rw [h.eq_rule (type_ne_none hs), rule_curr (type_ne_none hs), chosenCell_of_not_choice hchoice,
    currCell, if_pos hs]
  rfl

/-! ### The value that has been set -/

theorem and_or_eq_self {val rev vis : Tristate} (h : rev ≤ val) (h' : val ≤ vis) :
    (val.and vis).or rev = val := by
  have hand : val.and vis = val := by
    rw [Tristate.and]
    split_ifs with hlt
    · rfl
    · exact le_antisymm (not_lt.mp hlt) h'
  rw [hand, Tristate.or]
  split_ifs with hlt
  · rfl
  · exact le_antisymm h (not_lt.mp hlt)

/-- A value in the range -/
theorem Solves.tri_eq (hacyclic : T.Acyclic rank) (h : T.Solves w user has) (h' : T.Solves w' user' has')
    (hs : T.IsTri s) (hchoice : T.isChoice s = false)
    (hcurr : ∀ {t}, rank t < rank s → (w t).curr = (w' t).curr) (hhas : has' s = true)
    (hnot : ¬(T.isChoiceValue s = true ∧ (w s).visible = .yes)) (hvisible : (w s).visible ≠ .no)
    (hrev : (w s).revDep ≤ (user' s).tri) (hvis : (user' s).tri ≤ (w s).visible)
    (hmod : ¬((user' s).tri = .mod ∧
      (T.symGetType s (w s).visible (w T.modules).curr.tri = some .boolean ∨ (w s).implied = .yes))) :
    (w' s).curr.tri = (user' s).tri := by
  have hagree : Agree T (rank · < rank s) w w' := Agree.of_curr hacyclic h.ne_mod hcurr
  have hcell : T.visibleCell w' has' s = { T.visibleCell w has s with hasValue := true } := by
    have hflag : T.visibleCell w has' s = { T.visibleCell w has s with hasValue := has' s } :=
      visibleCell_flag
    rw [← visibleCell_congr hacyclic hagree, hflag, hhas]
  have hmodules : T.type s = some .tristate → (w T.modules).curr.tri = (w' T.modules).curr.tri :=
    fun htype => hagree.tri (hacyclic.modules htype)
  obtain ⟨heqvis, heqrev, heqimp⟩ := h.fields (type_ne_none hs)
  rw [heqvis] at hnot hvisible hvis hmod
  rw [heqrev] at hrev
  rw [heqimp] at hmod
  have hnew : (T.newTriVal w' user' s { T.visibleCell w has s with hasValue := true }).1 =
      (user' s).tri := by
    rw [newTriVal, if_neg hnot, if_pos ⟨hvisible, rfl⟩]
    exact and_or_eq_self hrev hvis
  rw [h'.tri hs hchoice, hcell, hnew, ← finishTri_congr hmodules, finishTri]
  exact if_neg hmod

omit [DecidableEq S] in
theorem finishTri_eq_yes {c : Cell S} {modulesVal tri tri' : Tristate} (hle : tri ≤ tri')
    (h : T.finishTri s c modulesVal tri = .yes) : T.finishTri s c modulesVal tri' = .yes := by
  rw [finishTri] at h ⊢
  by_cases hyes : tri = .yes
  · rw [hyes] at hle
    rw [le_antisymm (Tristate.le_yes tri') hle]
    exact ite_self _
  · split_ifs at h with hmod
    · rw [hmod.1] at hle
      cases tri' with
      | no => exact absurd hle (by decide)
      | mod => exact if_pos ⟨rfl, hmod.2⟩
      | yes => exact ite_self _
    · exact absurd h hyes

theorem no_or_le (a b : Tristate) : Tristate.no.or b ≤ a.or b := by
  cases a <;> cases b <;> decide

/-- A choice that is `y` stays so when the user sets it. -/
theorem currCell_choice_yes (hacyclic : T.Acyclic rank) (hchoices : T.Choices)
    (hagree : Agree T (rank · < rank s) w w') (hs : T.isChoice s = true)
    (htri : (user' s).tri = (user s).tri) (hhas : has' s = true)
    (hyes : (T.currCell w user has s).curr.tri = .yes) :
    (T.currCell w' user' has' s).curr.tri = .yes := by
  have hcell : T.visibleCell w' has' s = { T.visibleCell w has s with hasValue := true } := by
    have hflag : T.visibleCell w has' s = { T.visibleCell w has s with hasValue := has' s } :=
      visibleCell_flag
    rw [← visibleCell_congr hacyclic hagree, hflag, hhas]
  have hmodules : T.type s = some .tristate → (w T.modules).curr.tri = (w' T.modules).curr.tri :=
    fun htype => hagree.tri (hacyclic.modules htype)
  have hnot : ∀ c : Cell S, ¬(T.isChoiceValue s = true ∧ c.visible = .yes) := fun c h => by
    rw [isChoiceValue, hchoices.not_value hs] at h
    cases h.1
  have hle : (T.newTriVal w user s (T.visibleCell w has s)).1 ≤
      (T.newTriVal w' user' s { T.visibleCell w has s with hasValue := true }).1 := by
    by_cases hvisible : (T.visibleCell w has s).visible = .no
    · rw [newTriVal, newTriVal, if_neg (hnot _), if_neg (hnot _), if_neg fun h => h.1 hvisible,
        if_neg fun h => h.1 hvisible, unsetVal, unsetVal, if_pos hs, if_pos hs]
    · have hnew : (T.newTriVal w' user' s { T.visibleCell w has s with hasValue := true }).1 =
          ((user s).tri.and (T.visibleCell w has s).visible).or (T.visibleCell w has s).revDep := by
        rw [newTriVal, if_neg (hnot _), if_pos ⟨hvisible, rfl⟩, htri]
      rw [hnew, newTriVal, if_neg (hnot _)]
      split_ifs
      · exact le_rfl
      · rw [unsetVal, if_pos hs]
        exact no_or_le _ _
  rw [currCell, if_pos (hchoices.isTri hs)] at hyes ⊢
  rw [triVal, hcell]
  show T.finishTri s (T.visibleCell w has s) (w' T.modules).curr.tri _ = .yes
  rw [← finishTri_congr hmodules]
  exact finishTri_eq_yes hle hyes

theorem Solves.currCell_yes (h : T.Solves w user has) (hchoices : T.Choices) (hs : T.isChoice s = true)
    (hyes : (w s).curr.tri = .yes) : (T.currCell w user has s).curr.tri = .yes := by
  have htype := type_ne_none (hchoices.isTri hs)
  have htri : (T.chosenCell w user has s).curr.tri = .yes := by
    rw [← rule_curr htype, ← h.eq_rule htype, hyes]
  rcases @chosenCell_tri _ T user _ has w s with heq | heq
  · rw [← heq, htri]
  · rw [heq] at htri
    cases htri

/-- A value of a choice that is `y`, when it is chosen. -/
theorem Solves.tri_chosen (hacyclic : T.Acyclic rank) (hchoices : T.Choices) (h : T.Solves w user has)
    (h' : T.Solves w' user' has') {c : S} (hc : T.choiceOf s = some c) (hs : T.IsTri s)
    (hcurr : ∀ {t}, rank t < rank c → (w t).curr = (w' t).curr)
    (hchosen : (user' c).chosen = some s) (htri : (user' c).tri = (user c).tri) (hhas : has' c = true)
    (hyes : (w c).curr.tri = .yes) (hvisible : (w s).visible = .yes) : (w' s).curr.tri = .yes := by
  have hagree : Agree T (rank · < rank c) w w' := Agree.of_curr hacyclic h.ne_mod hcurr
  have hchoice := hchoices.isChoice hc
  have htype := type_ne_none (hchoices.isTri hchoice)
  have hv := hchoices.mem_values.mp hc
  have hcell := h.currCell_yes hchoices hchoice hyes
  have hcell' := currCell_choice_yes hacyclic hchoices hagree hchoice htri hhas hcell
  have hval : (T.currCell w user has c).curr.val = (T.currCell w' user' has' c).curr.val := by
    rw [currCell, currCell, if_pos (hchoices.isTri hchoice), if_pos (hchoices.isTri hchoice)]
    rfl
  have hsee : T.visibleVal (Function.update w' c (T.currCell w' user' has' c)) s = .yes := by
    rw [← (hagree.update hacyclic hcell hcell' hval).visibleVal_value hacyclic hchoices hv,
      h.visible_value hacyclic hchoices hchoice hv hcell, hvisible]
  have hvisible' : (w' s).visible = .yes := by
    rw [← h'.visible_value hacyclic hchoices hchoice hv hcell', hsee]
  have hsome : (w' c).curr.chosen = some s := by
    rw [h'.eq_rule htype, rule_curr htype, chosenCell, if_pos ⟨hchoice, hcell'⟩]
    show Option.or (Option.filter _ (user' c).chosen) _ = _
    rw [hchosen, Option.filter_some, if_pos]
    · rfl
    · rw [hsee]
      rfl
  have hnot : T.isChoice s = false := by
    by_contra hne
    rw [hchoices.not_value (Bool.eq_true_of_not_eq_false hne)] at hc
    cases hc
  rw [h'.tri hs hnot, newTriVal, if_pos, hc, Option.any_some, hsome, decide_eq_true rfl]
  · exact if_neg fun h => Tristate.noConfusion h.1
  · rw [← (h'.fields (type_ne_none hs)).1]
    exact ⟨by rw [isChoiceValue, hc]; rfl, hvisible'⟩

end frame

/-! ### Setting -/

section set
variable {T} {user : S → SymbolValue S} {has : S → Bool} {w : S → Cell S} {rank : S → ℕ} {s : S} {n : ℕ}
  {val : Tristate} {σ : Session S}

theorem Settings.triUser (hchoices : T.Choices) (h : T.Settings user) (s : S) (val : Tristate) :
    T.Settings (T.triUser s val user) := by
  intro c v hv
  rw [Table.triUser] at hv
  split_ifs at hv with heq hchoice
  · subst heq
    exact h c v hv
  · rw [Option.mem_some_iff] at hv
    subst hv
    exact hchoices.mem_values.mp hchoice.2
  · exact h c v hv

/-- What `sym_tristate_within_range` has seen to. -/
structure InRange (T : Table S) (s : S) (c : Cell S) (modulesVal val : Tristate) : Prop where
  isTri : T.IsTri s
  visible : c.visible ≠ .no
  not_mod : ¬(val = .mod ∧
    (T.symGetType s c.visible modulesVal = some .boolean ∨ c.implied = .yes))
  choice : T.isChoiceValue s = true → c.visible = .yes → val = .yes
  range : ¬(T.isChoiceValue s = true ∧ c.visible = .yes) → c.revDep ≤ val ∧ val ≤ c.visible

omit [DecidableEq S] in
theorem isTri_of_symGetType {visible modulesVal : Tristate}
    (h : ¬(T.symGetType s visible modulesVal ≠ some .boolean ∧
      T.symGetType s visible modulesVal ≠ some .tristate)) : T.IsTri s := by
  rw [symGetType] at h
  split_ifs at h with htype
  · exact .inr htype.1
  · rwa [not_and_or, not_not, not_not] at h

omit [DecidableEq S] in
theorem inRange (h : T.symTristateWithinRange s σ.state val = true) :
    InRange T s (σ.state.cell s) σ.state.modulesVal val := by
  rw [symTristateWithinRange] at h
  split_ifs at h with hvisible htype hbool hrev himplied hchoice
  all_goals
    have hnot : ¬(val = .mod ∧ (T.symGetType s (σ.state.cell s).visible σ.state.modulesVal =
        some .boolean ∨ (σ.state.cell s).implied = .yes)) := fun hmod =>
      hmod.2.elim (fun htype => hbool ⟨htype, hmod.1⟩) fun hyes => himplied ⟨hyes, hmod.1⟩
  · exact ⟨isTri_of_symGetType htype, hvisible, hnot, fun _ _ => of_decide_eq_true h,
      fun hne => absurd hchoice hne⟩
  · exact ⟨isTri_of_symGetType htype, hvisible, hnot, fun hv hy => absurd ⟨hv, hy⟩ hchoice,
      fun _ => of_decide_eq_true h⟩

theorem flags_setFlags (has : S → Bool) {t : S} (ht : ∀ x, t ≠ T.const x) (σ : State S) :
    flags (T.setFlags has σ) t = has t := by
  show (if (T.constOf t).isSome then _ else has t) = has t
  rw [constOf_eq_none ht]
  rfl

/-- The settings of the symbols below are left as they are. -/
theorem triFlags_below (hchoices : T.Choices) (hacyclic : T.Acyclic rank) {t : S} (ht : rank t < rank s)
    (hbelow : ∀ c, T.choiceOf s = some c → val = .yes → rank t < rank c) (user : S → SymbolValue S)
    (σ : State S) :
    user t = T.triUser s val user t ∧ flags σ t = flags (T.setFlags (T.triFlags s val σ) σ) t := by
  have hne : t ≠ s := fun heq => lt_irrefl _ (heq ▸ ht)
  constructor
  · rw [triUser, if_neg hne, if_neg]
    rintro ⟨hval, hc⟩
    exact lt_irrefl _ (hbelow t hc hval)
  · show _ = if (T.constOf t).isSome then _ else T.triFlags s val σ t
    split_ifs
    · rfl
    · have hnot : (val = .yes && (T.choiceOf s).any fun cs =>
          t = cs || t ∈ T.values cs && (σ.cell t).visible ≠ .no) = false := by
        by_contra h
        rw [Bool.not_eq_false, Bool.and_eq_true, decide_eq_true_iff, Option.any_eq_true] at h
        obtain ⟨hval, c, hc, h⟩ := h
        have hlt := hbelow c hc hval
        rcases Bool.or_eq_true_iff.mp h with heq | hvalue
        · exact lt_irrefl _ (of_decide_eq_true heq ▸ hlt)
        · have hmem := of_decide_eq_true (Bool.and_eq_true_iff.mp hvalue).1
          exact lt_asymm hlt (hacyclic.choice (hchoices.mem_values.mpr hmem))
      rw [triFlags, hnot, decide_eq_false hne, Bool.or_false, Bool.or_false]

/-- The settings that `sym_set_tristate_value` makes give the symbol the value. -/
theorem Consistent.tri_set (hacyclic : T.Acyclic rank) (hchoices : T.Choices) (hset : T.Settings σ.user)
    (h : T.Consistent σ.user (flags σ.state) w σ.state) (hvalid : (σ.state.cell s).valid = true)
    (hs : T.isChoice s = false)
    (hyes : ∀ c, T.choiceOf s = some c → (w s).visible = .yes → (w c).curr.tri = .yes)
    (hrange : T.symTristateWithinRange s σ.state val = true) {w' : S → Cell S}
    (h' : T.Solves w' (T.triUser s val σ.user)
      (flags (T.setFlags (T.triFlags s val σ.state) σ.state))) :
    (w' s).curr.tri = val := by
  obtain ⟨hisTri, hvisible, hmod, hvalue, hbounds⟩ := inRange hrange
  have hsettled : T.Settled w s (σ.state.cell s) := h.inv.settled id hvalid
  have hmodules : σ.state.modulesVal = (w T.modules).curr.tri := h.inv.modulesVal h.modules id
  have heqvis : (σ.state.cell s).visible = (w s).visible := by rw [hsettled.eq]
  have heqrev : (σ.state.cell s).revDep = (w s).revDep := by rw [hsettled.eq]
  have heqimp : (σ.state.cell s).implied = (w s).implied := by rw [hsettled.eq]
  rw [heqvis] at hvisible hmod hvalue hbounds
  rw [heqrev] at hbounds
  rw [heqimp, hmodules] at hmod
  have hconst : ∀ {t}, T.type t ≠ none → ∀ x, t ≠ T.const x := by
    rintro _ ht x rfl
    exact ht (T.type_const x)
  have hhas : flags (T.setFlags (T.triFlags s val σ.state) σ.state) s = true := by
    rw [flags_setFlags _ (hconst (type_ne_none hisTri)), triFlags, decide_eq_true rfl, Bool.or_true,
      Bool.true_or]
  have hval : (T.triUser s val σ.user s).tri = val := by rw [triUser, if_pos rfl]
  by_cases hchoice : T.isChoiceValue s = true ∧ (w s).visible = .yes
  · obtain ⟨c, hc⟩ := Option.isSome_iff_exists.mp hchoice.1
    have hy := hvalue hchoice.1 hchoice.2
    subst hy
    have hcs : c ≠ s := by
      rintro rfl
      rw [hchoices.isChoice hc] at hs
      cases hs
    have huserc : T.triUser s .yes σ.user c = { σ.user c with chosen := some s } := by
      rw [triUser, if_neg hcs, if_pos ⟨rfl, hc⟩]
    have hhasc : flags (T.setFlags (T.triFlags s .yes σ.state) σ.state) c = true := by
      rw [flags_setFlags _ (hconst (type_ne_none (hchoices.isTri (hchoices.isChoice hc)))), triFlags, hc,
        Option.any_some, decide_eq_true (rfl : c = c), Bool.true_or]
      simp only [decide_true, Bool.and_self, Bool.or_true]
    have hbelow : ∀ t, rank t < rank c → rank t < rank s ∧
        ∀ c', T.choiceOf s = some c' → Tristate.yes = .yes → rank t < rank c' := fun t ht =>
      ⟨ht.trans (hacyclic.choice hc), fun c' hc' _ => by rwa [← Option.some.inj (hc.symm.trans hc')]⟩
    have hcurr : ∀ {t}, rank t < rank c → (w t).curr = (w' t).curr := fun ht =>
      h.solves.frame hacyclic hchoices hset h'
        (fun t ht => (triFlags_below hchoices hacyclic (hbelow t ht).1 (hbelow t ht).2 _ σ.state).1)
        (fun t ht => (triFlags_below hchoices hacyclic (hbelow t ht).1 (hbelow t ht).2 σ.user _).2) ht
    exact h.solves.tri_chosen hacyclic hchoices h' hc hisTri hcurr (by rw [huserc]) (by rw [huserc]) hhasc
      (hyes c hc hchoice.2) hchoice.2
  · obtain ⟨hrev, hvis⟩ := hbounds hchoice
    have hbelow : ∀ {t : S} c, T.choiceOf s = some c → val = .yes → rank t < rank c := by
      rintro t c hc rfl
      refine absurd ⟨?_, le_antisymm (Tristate.le_yes _) hvis⟩ hchoice
      rw [isChoiceValue, hc]
      rfl
    have hcurr : ∀ {t}, rank t < rank s → (w t).curr = (w' t).curr := fun ht =>
      h.solves.frame hacyclic hchoices hset h'
        (fun t ht => (triFlags_below hchoices hacyclic ht hbelow _ σ.state).1)
        (fun t ht => (triFlags_below hchoices hacyclic ht hbelow σ.user _).2) ht
    refine (h.solves.tri_eq hacyclic h' hisTri hs hcurr hhas hchoice hvisible ?_ ?_ ?_).trans hval
    · rw [hval]
      exact hrev
    · rw [hval]
      exact hvis
    · rw [hval]
      exact hmod

/-- A value that the symbol has not had -/
theorem Consistent.set_new (hacyclic : T.Acyclic rank) (hchoices : T.Choices) (hset : T.Settings σ.user)
    (h : T.Consistent σ.user (flags σ.state) w σ.state) (hvalid : (σ.state.cell s).valid = true)
    (hs : T.isChoice s = false)
    (hyes : ∀ c, T.choiceOf s = some c → (w s).visible = .yes → (w c).curr.tri = .yes)
    (hn : rank T.modules < n) (hne : (w s).curr.tri ≠ val)
    (hrange : T.symTristateWithinRange s σ.state val = true) :
    ∃ σ' has' w', T.symSetTristateValue n s val σ = some (true, σ') ∧ T.Settings σ'.user ∧
      T.Consistent σ'.user has' w' σ'.state ∧ (w' s).curr.tri = val := by
  have hold : (σ.state.cell s).curr.tri = (w s).curr.tri := by rw [(h.inv.settled id hvalid).curr]
  have hset' := hset.triUser hchoices s val
  obtain ⟨w', hw'⟩ : ∃ w', T.Solves w' (T.triUser s val σ.user)
      (flags (T.setFlags (T.triFlags s val σ.state) σ.state)) :=
    ⟨_, solves_solve hacyclic hchoices hset'⟩
  obtain ⟨σ', hrun, hσ'⟩ := ((h.idle hchoices).setFlags (T.triFlags s val σ.state)).symClearAllValid
    hacyclic hchoices hset' hw' hn
  refine ⟨⟨_, σ'⟩, _, w', ?_, hset', hσ', h.tri_set hacyclic hchoices hset hvalid hs hyes hrange hw'⟩
  rw [symSetTristateValue]
  dsimp only
  rw [hold, if_neg fun hnot => hnot.2 hrange, if_pos hne, hrun]
  rfl

theorem set_refused (hold : (σ.state.cell s).curr.tri ≠ val)
    (hrange : T.symTristateWithinRange s σ.state val = false) :
    T.symSetTristateValue n s val σ = some (false, σ) := by
  rw [symSetTristateValue]
  exact if_pos ⟨hold, by rw [hrange]; exact Bool.false_ne_true⟩

/-- The value that the symbol has is not calculated anew. -/
theorem set_same (hold : (σ.state.cell s).curr.tri = val) :
    T.symSetTristateValue n s val σ =
      some (true, ⟨T.triUser s val σ.user, T.setFlags (T.triFlags s val σ.state) σ.state⟩) := by
  rw [symSetTristateValue]
  dsimp only
  rw [if_neg fun h => h.1 hold, if_neg (not_not.mpr hold)]

/-- After the call the symbol has the value. -/
def Gives (T : Table S) (n : ℕ) (s : S) (val : Tristate) (σ : Session S) : Prop :=
  ∃ σ', T.symCalcValue σ.user n s σ.state = some ((), σ') ∧ (σ'.cell s).curr.tri = val

theorem symCalcValue_valid {user : S → SymbolValue S} {σ : State S} (h : (σ.cell s).valid = true) :
    T.symCalcValue user n s σ = some ((), σ) := by
  cases n with
  | zero =>
    show (if (σ.cell s).valid = true then (pure () : Calc S Unit) else _) σ = _
    rw [if_pos h]
    rfl
  | succ n =>
    show (if (σ.cell s).valid = true then (pure () : Calc S Unit) else _) σ = _
    rw [if_pos h]
    rfl

theorem Consistent.set_run (hacyclic : T.Acyclic rank) (hchoices : T.Choices) (hset : T.Settings σ.user)
    (h : T.Consistent σ.user (flags σ.state) w σ.state) (hvalid : (σ.state.cell s).valid = true)
    (hs : T.isChoice s = false)
    (hyes : ∀ c, T.choiceOf s = some c → (w s).visible = .yes → (w c).curr.tri = .yes)
    (hn : ∀ t, rank t < n) (val : Tristate) :
    (((σ.state.cell s).curr.tri = val ∨ T.symTristateWithinRange s σ.state val = true) ∧
      ∃ σ', T.symSetTristateValue n s val σ = some (true, σ') ∧ Gives T n s val σ') ∨
    ((σ.state.cell s).curr.tri ≠ val ∧ T.symTristateWithinRange s σ.state val = false ∧
      T.symSetTristateValue n s val σ = some (false, σ)) := by
  by_cases hold : (σ.state.cell s).curr.tri = val
  · refine .inl ⟨.inl hold, _, set_same hold, T.setFlags (T.triFlags s val σ.state) σ.state,
      symCalcValue_valid hvalid, hold⟩
  rcases hrange : T.symTristateWithinRange s σ.state val with _ | _
  · exact .inr ⟨hold, rfl, set_refused hold hrange⟩
  · have hne : (w s).curr.tri ≠ val := by rwa [← (h.inv.settled id hvalid).curr]
    obtain ⟨σ', has', w', hrun, hset', hσ', htri⟩ := h.set_new hacyclic hchoices hset hvalid hs hyes
      (hn _) hne hrange
    obtain ⟨σ'', hcalc, hσ'', hvalid'', -⟩ := hσ'.symCalcValue hacyclic hchoices hset' (hn s)
    refine .inl ⟨.inr rfl, σ', hrun, σ'', hcalc, ?_⟩
    rw [(hσ''.inv.settled id hvalid'').curr, htri]

/-- The small menu when a value of the choice has been asked for. -/
theorem exists_session_small : ∃ (σ : Session Small) (w : Small → Cell Small),
    Small.table.Settings σ.user ∧ Small.table.Consistent σ.user (flags σ.state) w σ.state ∧
      (σ.state.cell .right).valid = true ∧ (w .choice).curr.tri = .yes := by
  obtain ⟨w, hw, hyes, hhas⟩ : ∃ w, Small.table.Solves w Small.user
      (fun s => (Small.table.constOf s).isNone && false) ∧ (w .choice).curr.tri = .yes ∧
      (w .choice).hasValue = false :=
    ⟨_, solves_solve Small.acyclic Small.choices Small.mem_values_of_user, rfl, rfl⟩
  obtain ⟨σ, -, hσ⟩ := (idle_initial (fun t ht => by cases ht) Small.choices).clear_run Small.acyclic
    Small.choices Small.rank_lt Small.user Small.mem_values_of_user _ hw
  obtain ⟨σ', -, hσ', -, hvalid⟩ := hσ.values_run Small.acyclic Small.choices Small.rank_lt
    Small.mem_values_of_user [Small.right]
  have hflags : flags σ' = fun s => (Small.table.constOf s).isNone && false := by
    funext s
    by_cases hs : Small.table.isChoice s = true
    · rcases hvalid : (σ'.cell s).valid with _ | _
      · exact (hσ'.inv.fresh hvalid).hasValue
      · rw [flags, (hσ'.inv.settled id hvalid).eq, show s = .choice from of_decide_eq_true hs]
        exact hhas
    · exact hσ'.inv.hasValue (Bool.eq_false_iff.mpr hs)
  rw [← hflags] at hσ'
  exact ⟨⟨Small.user, σ'⟩, w, Small.mem_values_of_user, hσ', hvalid _ List.mem_cons_self, hyes⟩

end set

end Dir842.Kconfig.Table
