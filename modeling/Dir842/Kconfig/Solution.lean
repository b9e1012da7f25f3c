import Dir842.Kconfig.SetValue
import Mathlib.Data.List.TakeWhile

/-!
# What the solution is like

A symbol that is selected is at least what selects it, in a choice that is `y` one value is `y`, and a
number is in its range.
-/

namespace Dir842.Kconfig.Table

variable {S : Type} [DecidableEq S] {T : Table S} {user : S → SymbolValue S} {has : S → Bool}
  {w : S → Cell S} {rank : S → ℕ} {s c v : S}

/-! ### Selecting -/

theorem le_or_right (a b : Tristate) : b ≤ a.or b := by
  cases a <;> cases b <;> decide

omit [DecidableEq S] in
theorem le_noMod (visible modulesVal tri : Tristate) : tri ≤ T.noMod s visible modulesVal tri := by
  rw [noMod]
  split_ifs
  · exact Tristate.le_yes _
  · exact le_rfl

omit [DecidableEq S] in
theorem le_finishTri (c : Cell S) (modulesVal tri : Tristate) : tri ≤ T.finishTri s c modulesVal tri := by
  rw [finishTri]
  split_ifs
  · exact Tristate.le_yes _
  · exact le_rfl

/-- What is selected has at least the value of the condition, whatever the user has set. -/
theorem Solves.select (h : T.Solves w user has) (hs : T.IsTri s) (hchoice : T.isChoice s = false)
    (hvalue : T.isChoiceValue s = false) {e : Expr S} (he : T.revDep s = some e) :
    T.exprVal w e ≤ (w s).curr.tri := by
  have hrev : T.exprVal w e ≤ (T.visibleCell w has s).revDep := by
    rw [visibleCell, visibilityVal, if_neg (by rw [hvalue]; exact Bool.false_ne_true), he]
    exact le_noMod _ _ _
  have hnew : (T.visibleCell w has s).revDep ≤ (T.newTriVal w user s (T.visibleCell w has s)).1 := by
    rw [newTriVal, if_neg (by rw [hvalue]; exact fun h => Bool.false_ne_true h.1)]
    split_ifs
    · exact le_or_right _ _
    · exact le_or_right _ _
  rw [h.tri hs hchoice]
  exact hrev.trans (hnew.trans (le_finishTri _ _ _))

theorem Solves.select_small : ∃ w, Small.table.Solves w Small.user (fun _ => true) ∧
    Small.table.exprVal w (.symbol (.const .mod)) ≤ (w .modules).curr.tri := by
  have hw : Small.table.Solves _ Small.user fun _ => true :=
    solves_solve Small.acyclic Small.choices Small.mem_values_of_user
  exact ⟨_, hw, Solves.select hw (.inl rfl) rfl rfl rfl⟩

/-! ### Choices -/

omit [DecidableEq S] in
theorem foldl_or_ne_mod {α : Type*} {f : α → Tristate} (hf : ∀ a, f a ≠ .mod) {l : List α} {tri : Tristate}
    (htri : tri ≠ .mod) : l.foldl (fun tri a => tri.or (f a)) tri ≠ .mod := by
  induction l generalizing tri with
  | nil => exact htri
  | cons a l ih =>
    refine ih ?_
    show (if _ then _ else _ : Tristate) ≠ _
    split_ifs
    · exact htri
    · exact hf a

/-- In a choice that is `y` a value is seen wholly or not at all. -/
theorem Solves.visible_ne_mod (h : T.Solves w user has) (hchoices : T.Choices) (hv : T.choiceOf v = some c)
    (hyes : (w c).curr.tri = .yes) : (w v).visible ≠ .mod := by
  rw [h.visible (hchoices.type hv), visibleVal, noModPrompt]
  by_cases htype : T.type v = some .tristate
  · have hprompts : T.promptsVal w v ≠ .mod := by
      refine foldl_or_ne_mod (fun cond => ?_) Tristate.noConfusion
      rw [promptVal]
      split_ifs with hmod
      · exact Tristate.noConfusion
      · refine fun heq => hmod ⟨htype, heq, ?_⟩
        rw [hv, Option.any_some, hyes]
        rfl
    rw [if_neg fun hmod => hprompts hmod.1]
    exact hprompts
  · split_ifs with hmod
    · exact Tristate.noConfusion
    · exact fun heq => hmod ⟨heq, .inl htype⟩

/-- A choice that is `y` has chosen one of its values that can be seen. -/
theorem Solves.chosen (hacyclic : T.Acyclic rank) (hchoices : T.Choices) (hset : T.Settings user)
    (h : T.Solves w user has) (hc : T.isChoice c = true) (hyes : (w c).curr.tri = .yes) :
    ∃ v ∈ T.values c, (w c).curr.chosen = some v ∧ (w v).visible = .yes := by
  have htype := type_ne_none (hchoices.isTri hc)
  have hcell := h.currCell_yes hchoices hc hyes
  have hsee := fun v (hv : v ∈ T.values c) => h.visible_value hacyclic hchoices hc hv hcell
  have hcurr : (T.rule w user has c).curr = (T.chosenCell w user has c).curr := rule_curr htype
  rw [← h.eq_rule htype, chosenCell, if_pos ⟨hc, hcell⟩] at hcurr
  set u := Function.update w c (T.currCell w user has c)
  set chosen := ((user c).chosen.filter fun v => T.visibleVal u v ≠ .no).or (T.choiceDefaultVal u c)
    with hchosen
  have htri : (w c).curr.tri = if chosen = none then .no else (T.currCell w user has c).curr.tri := by
    rw [hcurr]
    rfl
  have hfirst : (w c).curr.chosen = chosen := by rw [hcurr]; rfl
  have hmem : ∀ v ∈ chosen, v ∈ T.values c ∧ T.visibleVal u v ≠ .no := by
    intro v hv
    rw [hchosen, Option.mem_def, Option.or_eq_some_iff] at hv
    rcases hv with huser | ⟨-, hdefault⟩
    · obtain ⟨hv, hvisible⟩ := Option.filter_eq_some_iff.mp huser
      exact ⟨hset c v hv, of_decide_eq_true hvisible⟩
    rw [choiceDefaultVal, Option.or_eq_some_iff] at hdefault
    rcases hdefault with hdefault | ⟨-, hfind⟩
    · obtain ⟨p, hp, hsome⟩ := List.exists_of_findSome?_eq_some hdefault
      obtain ⟨v', hv', hexpr⟩ := hchoices.defaults hc hp
      split_ifs at hsome
      rw [hexpr] at hsome
      obtain ⟨heq, hvisible⟩ := Option.filter_eq_some_iff.mp hsome
      cases heq
      exact ⟨hv', of_decide_eq_true hvisible⟩
    · have hvisible := List.find?_some hfind
      exact ⟨List.mem_of_find?_eq_some hfind, of_decide_eq_true hvisible⟩
  rcases hnone : chosen with _ | v
  · rw [hyes, if_pos hnone] at htri
    cases htri
  · obtain ⟨hv, hvisible⟩ := hmem v hnone
    refine ⟨v, hv, hfirst.trans hnone, ?_⟩
    rw [hsee v hv] at hvisible
    have hne := h.visible_ne_mod hchoices (hchoices.mem_values.mpr hv) hyes
    revert hvisible hne
    cases (w v).visible <;> simp

/-- A value that has no defaults and is not set by the user is `n`. -/
theorem newTriVal_of_value (hv : T.isChoiceValue v = true) (hnot : T.isChoice v = false)
    (hdefaults : T.defaults v = []) (hvisible : (T.visibleCell w has v).visible ≠ .yes) :
    (T.newTriVal w user v (T.visibleCell w has v)).1 ≤ (T.visibleCell w has v).visible := by
  have hcell : (T.visibleCell w has v).revDep = .no ∧ (T.visibleCell w has v).implied = .no := by
    rw [visibleCell, visibilityVal, if_pos hv]
    exact ⟨rfl, rfl⟩
  have hor : ∀ a b : Tristate, (a.and b).or .no ≤ b := by
    intro a b
    cases a <;> cases b <;> decide
  rw [newTriVal, if_neg fun h => hvisible h.2, hcell.1]
  split_ifs
  · exact hor _ _
  · rw [unsetVal, hnot, defaultVal, hdefaults, hcell.2]
    exact Tristate.no_le _

/-- Without modules nothing is `m`. -/
theorem Solves.ne_mod_of_no_modules (h : T.Solves w user has) (hs : T.IsTri s)
    (hmodules : (w T.modules).curr.tri = .no) : (w s).curr.tri ≠ .mod := by
  have hbool : ∀ visible, T.symGetType s visible (w T.modules).curr.tri = some .boolean := by
    intro visible
    rw [symGetType, hmodules]
    rcases hs with hs | hs
    · rw [hs]
      exact ite_self _
    · exact if_pos ⟨hs, .inr rfl⟩
  have hcurr : (T.currCell w user has s).curr.tri ≠ .mod := by
    rw [currCell, if_pos hs]
    show T.finishTri s _ _ _ ≠ .mod
    rw [finishTri, hbool]
    split_ifs with htri
    · exact Tristate.noConfusion
    · exact fun heq => htri ⟨heq, .inl rfl⟩
  rw [h.eq_rule (type_ne_none hs), rule_curr (type_ne_none hs)]
  rcases @chosenCell_tri _ T user _ has w s with heq | heq
  · rwa [heq]
  · rw [heq]
    exact Tristate.noConfusion

/-- The values of a choice -/
theorem Solves.value_tri (h : T.Solves w user has) (hchoices : T.Choices) (hv : T.choiceOf v = some c)
    (htri : T.IsTri v) (hdefaults : T.defaults v = []) :
    ((w v).visible = .yes →
      (w v).curr.tri = .ofBool (decide ((w c).curr.chosen = some v))) ∧
    ((w v).visible = .no → (w v).curr.tri = .no) ∧
    ((w v).visible = .mod → (w T.modules).curr.tri ≠ .no → (w v).curr.tri ≠ .yes) := by
  have hvalue : T.isChoiceValue v = true := by rw [isChoiceValue, hv]; rfl
  have hnot : T.isChoice v = false := by
    by_contra hne
    rw [hchoices.not_value (Bool.eq_true_of_not_eq_false hne)] at hv
    cases hv
  have hfields := h.fields (type_ne_none htri)
  have himplied : (T.visibleCell w has v).implied = .no := by
    rw [visibleCell, visibilityVal, if_pos hvalue]
  have hle : (w v).visible ≠ .yes →
      (T.newTriVal w user v (T.visibleCell w has v)).1 ≤ (w v).visible := by
    rw [hfields.1]
    exact newTriVal_of_value hvalue hnot hdefaults
  have hvisible' := h.visible (hchoices.type hv)
  refine ⟨fun hvisible => ?_, fun hvisible => ?_, fun hvisible hmodules => ?_⟩ <;>
    rw [h.tri htri hnot]
  · rw [newTriVal, if_pos ⟨hvalue, hfields.1 ▸ hvisible⟩, hv, Option.any_some, finishTri, if_neg]
    rintro ⟨hmod, -⟩
    rw [Tristate.ofBool] at hmod
    split_ifs at hmod
  · rw [hvisible] at hle
    rw [le_antisymm (hle Tristate.noConfusion) (Tristate.no_le _)]
    exact if_neg fun hmod => Tristate.noConfusion hmod.1
  · have htype : T.type v = some .tristate := by
      by_contra hne
      rw [hvisible', visibleVal, noModPrompt] at hvisible
      split_ifs at hvisible with hmod
      exact hmod ⟨hvisible, .inl hne⟩
    rw [hvisible] at hle
    have htri : T.symGetType v .mod (w T.modules).curr.tri = some .tristate := by
      rw [symGetType, if_neg, htype]
      rintro ⟨-, ⟨-, hyes⟩ | hno⟩
      · cases hyes
      · exact hmodules hno
    rw [finishTri, himplied, ← hfields.1, hvisible, htri, if_neg]
    · exact fun hyes => absurd (hle Tristate.noConfusion) (by rw [hyes]; decide)
    · rintro ⟨-, hbool | hyes⟩
      · cases hbool
      · cases hyes

/-- In a choice that is `y` the value that it has chosen is `y` and the others are `n`; in one that is
`m` none is `y`, and in one that is `n` all are `n`. -/
theorem choice_values (hacyclic : T.Acyclic rank) (hchoices : T.Choices) (hset : T.Settings user)
    (h : T.Solves w user has) (hc : T.isChoice c = true)
    (hvalues : ∀ v ∈ T.values c, T.IsTri v ∧ T.defaults v = []) :
    ((w c).curr.tri = .yes → ∃ v ∈ T.values c, (w c).curr.chosen = some v ∧
      ∀ u ∈ T.values c, (w u).curr.tri = if u = v then .yes else .no) ∧
    ((w c).curr.tri = .mod → ∀ u ∈ T.values c, (w u).curr.tri ≠ .yes) ∧
    ((w c).curr.tri = .no → ∀ u ∈ T.values c, (w u).curr.tri = .no) := by
  have hvalue := fun u (hu : u ∈ T.values c) =>
    h.value_tri hchoices (hchoices.mem_values.mpr hu) (hvalues u hu).1 (hvalues u hu).2
  refine ⟨fun hyes => ?_, fun hmod u hu => ?_, fun hno u hu => ?_⟩
  · obtain ⟨v, hv, hchosen, hvisible⟩ := h.chosen hacyclic hchoices hset hc hyes
    refine ⟨v, hv, hchosen, fun u hu => ?_⟩
    by_cases huv : u = v
    · subst huv
      rw [if_pos rfl, (hvalue u hu).1 hvisible, hchosen, decide_eq_true rfl]
      rfl
    · have hne := h.visible_ne_mod hchoices (hchoices.mem_values.mpr hu) hyes
      rw [if_neg huv]
      cases hvisible : (w u).visible
      case mod => exact absurd hvisible hne
      case no => exact (hvalue u hu).2.1 hvisible
      case yes =>
        rw [(hvalue u hu).1 hvisible, hchosen, decide_eq_false fun heq => huv (Option.some.inj heq).symm]
        rfl
  · have hmodules : (w T.modules).curr.tri ≠ .no := fun hno =>
      h.ne_mod_of_no_modules (hchoices.isTri hc) hno hmod
    have hnone : (w c).curr.chosen = none := by
      have htype := type_ne_none (hchoices.isTri hc)
      have hcurr : (T.rule w user has c).curr = (T.chosenCell w user has c).curr := rule_curr htype
      rw [← h.eq_rule htype, chosenCell] at hcurr
      split_ifs at hcurr with hchoice
      · have hchosen : (w c).curr.tri = .no ∨ (w c).curr.tri = .yes := by
          rw [hcurr, ← hchoice.2, chosenVal]
          dsimp only
          split_ifs
          · exact .inl rfl
          · exact .inr rfl
        rw [hmod] at hchosen
        rcases hchosen with heq | heq <;> cases heq
      · rw [hcurr, currCell, if_pos (hchoices.isTri hc)]
        rfl
    cases hvisible : (w u).visible
    case mod => exact (hvalue u hu).2.2 hvisible hmodules
    case no =>
      rw [(hvalue u hu).2.1 hvisible]
      exact Tristate.noConfusion
    case yes =>
      rw [(hvalue u hu).1 hvisible, hnone]
      exact Tristate.noConfusion
  · refine (hvalue u hu).2.1 ?_
    have hcu := hchoices.mem_values.mpr hu
    rw [h.visible (hchoices.type hcu), hchoices.visibleVal_eq_no h.const hcu hno]

theorem choice_values_small : ∃ w, Small.table.Solves w Small.user (fun _ => true) ∧
    ((w .choice).curr.tri = .yes → ∃ v ∈ Small.table.values .choice, (w .choice).curr.chosen = some v ∧
      ∀ u ∈ Small.table.values .choice, (w u).curr.tri = if u = v then .yes else .no) := by
  have hw : Small.table.Solves _ Small.user fun _ => true :=
    solves_solve Small.acyclic Small.choices Small.mem_values_of_user
  refine ⟨_, hw, (choice_values Small.acyclic Small.choices Small.mem_values_of_user hw
    (c := Small.choice) rfl fun v hv => ?_).1⟩
  rcases hv with _ | ⟨_, _ | ⟨_, ⟨⟩⟩⟩
  · exact ⟨.inl rfl, rfl⟩
  · exact ⟨.inl rfl, rfl⟩

/-! ### Ranges -/

theorem digitChar_val (d : Fin 16) :
    isXDigit (Nat.digitChar d) = true ∧ xDigitVal (Nat.digitChar d) = d := by
  revert d
  decide

theorem toDigits_val {b : ℕ} (hb : 1 < b) (hb' : b ≤ 16) (n : ℕ) :
    (Nat.toDigits b n).foldl (fun n c => b * n + xDigitVal c) 0 = n ∧
      ∀ c ∈ Nat.toDigits b n, isXDigit c = true ∧ xDigitVal c < b := by
  induction n using Nat.strong_induction_on with
  | _ n ih =>
    by_cases hn : n < b
    · obtain ⟨hdigit, hval⟩ := digitChar_val ⟨n, hn.trans_le hb'⟩
      rw [Nat.toDigits_of_lt_base hn]
      refine ⟨by simpa using hval, fun c hc => ?_⟩
      rw [List.mem_singleton.mp hc]
      exact ⟨hdigit, hval ▸ hn⟩
    · have hle := not_lt.mp hn
      have hmod : n % b < b := Nat.mod_lt _ (by omega)
      obtain ⟨hfold, hmem⟩ := ih (n / b) (Nat.div_lt_self (by omega) hb)
      obtain ⟨hdigit, hval⟩ := digitChar_val ⟨n % b, hmod.trans_le hb'⟩
      rw [Nat.toDigits_of_base_le hb hle]
      refine ⟨?_, fun c hc => ?_⟩
      · rw [List.foldl_append, hfold]
        show b * (n / b) + xDigitVal _ = n
        rw [hval]
        exact Nat.div_add_mod n b
      · rcases List.mem_append.mp hc with hc | hc
        · exact hmem c hc
        · rw [List.mem_singleton.mp hc]
          exact ⟨hdigit, hval ▸ hmod⟩

theorem not_isSpace_of_isXDigit {c : Char} (hc : isXDigit c = true) :
    isSpace c = false ∧ c ≠ '-' ∧ c ≠ '+' := by
  refine ⟨?_, ?_, ?_⟩
  · by_contra hspace
    rw [Bool.not_eq_false] at hspace
    have hmem : c ∈ " \t\n\x0b\x0c\r".toList := List.contains_iff_mem.mp hspace
    revert hc
    rcases (by simpa using hmem : c = ' ' ∨ c = '\t' ∨ c = '\n' ∨ c = '\x0b' ∨ c = '\x0c' ∨ c = '\r') with
      rfl | rfl | rfl | rfl | rfl | rfl <;> decide
  · rintro rfl
    revert hc
    decide
  · rintro rfl
    revert hc
    decide

/-- `strtoll` of digits, behind a sign or not. -/
theorem strtoll_digits {b n : ℕ} {digits : Text} (hb : b ≠ 16) (hne : digits ≠ [])
    (hdigits : ∀ c ∈ digits, isXDigit c = true ∧ xDigitVal c < b)
    (hn : digits.foldl (fun n c => b * n + xDigitVal c) 0 = n) :
    strtoll b digits = min (n : Int) 9223372036854775807 ∧
      strtoll b ('-' :: digits) = max (-(n : Int)) (-9223372036854775808) := by
  have htake : (digits.takeWhile fun c => isXDigit c && decide (xDigitVal c < b)) = digits :=
    List.takeWhile_eq_self_iff.mpr fun c hc => by
      rw [(hdigits c hc).1, decide_eq_true (hdigits c hc).2]
      rfl
  constructor
  · obtain ⟨c, cs, rfl⟩ := List.exists_cons_of_ne_nil hne
    obtain ⟨hspace, hminus, hplus⟩ := not_isSpace_of_isXDigit (hdigits c List.mem_cons_self).1
    rw [strtoll, List.dropWhile_cons_of_neg (by rw [hspace]; exact Bool.false_ne_true)]
    split
    rename_i heq
    split at heq
    · rename_i h
      cases h
      exact absurd rfl hminus
    · rename_i h
      cases h
      exact absurd rfl hplus
    · cases heq
      dsimp only
      rw [if_neg hb, htake, hn]
      rfl
  · rw [strtoll, List.dropWhile_cons_of_neg (by decide)]
    dsimp only
    rw [if_neg hb]
    show max (-(((digits.takeWhile fun c => isXDigit c && decide (xDigitVal c < b)).foldl
      (fun n c => b * n + xDigitVal c) 0 : ℕ) : Int)) _ = _
    rw [htake, hn]

theorem strtoll_hex {n : ℕ} {digits : Text}
    (hdigits : ∀ c ∈ digits, isXDigit c = true ∧ xDigitVal c < 16)
    (hn : digits.foldl (fun n c => 16 * n + xDigitVal c) 0 = n) :
    strtoll 16 ("0x".toList ++ digits) = min (n : Int) 9223372036854775807 := by
  have htake : (digits.takeWhile fun c => isXDigit c && decide (xDigitVal c < 16)) = digits :=
    List.takeWhile_eq_self_iff.mpr fun c hc => by
      rw [(hdigits c hc).1, decide_eq_true (hdigits c hc).2]
      rfl
  show min (((digits.takeWhile fun c => isXDigit c && decide (xDigitVal c < 16)).foldl
    (fun n c => 16 * n + xDigitVal c) 0 : ℕ) : Int) _ = _
  rw [htake, hn]

theorem strtoll_bounds (b : ℕ) (str : Text) :
    -9223372036854775808 ≤ strtoll b str ∧ strtoll b str ≤ 9223372036854775807 := by
  have h : ∀ (neg : Bool) (n : ℕ),
      -9223372036854775808 ≤ (if neg then max (-n) (-9223372036854775808) else min n 9223372036854775807 : Int) ∧
      (if neg then max (-n) (-9223372036854775808) else min n 9223372036854775807 : Int) ≤
        9223372036854775807 := by
    intro neg n
    split_ifs <;> omega
  rw [strtoll]
  exact h _ _

/-- The number in the text of a bound of a range. -/
theorem strtoll_rangeText {type : Option SymType} {v : Int} (htype : type = some .int ∨ type = some .hex)
    (hv : -9223372036854775808 ≤ v) (hv' : v ≤ 9223372036854775807) (hhex : type = some .hex → 0 ≤ v) :
    strtoll (baseOf type 0) (rangeText type v) = v := by
  rcases htype with rfl | rfl
  · obtain ⟨hfold, hmem⟩ := toDigits_val (b := 10) (by decide) (by decide) v.natAbs
    obtain ⟨hpos, hneg⟩ := strtoll_digits (b := 10) (by decide) Nat.toDigits_ne_nil hmem hfold
    show strtoll 10 (lldText v) = v
    rw [lldText]
    split_ifs
    · rw [hneg]
      omega
    · rw [hpos]
      omega
  · have hnonneg := hhex rfl
    obtain ⟨n, rfl⟩ := Int.eq_ofNat_of_zero_le hnonneg
    obtain ⟨hfold, hmem⟩ := toDigits_val (b := 16) (by decide) (by decide) n
    show strtoll 16 ("0x".toList ++ Nat.toDigits 16 ((n : Int) % 18446744073709551616).toNat) = n
    have hmod : ((n : Int) % 18446744073709551616).toNat = n := by omega
    rw [hmod, strtoll_hex hmem hfold]
    omega

/-- The number of a symbol is in the first range that applies. -/
theorem Solves.in_range (h : T.Solves w user has) (htype : T.type s = some .int ∨ T.type s = some .hex)
    {p : Range S} (hp : T.rangeVal w s = some p)
    (hle : T.rangeNumber w (baseOf (T.type s) 0) p.left ≤ T.rangeNumber w (baseOf (T.type s) 0) p.right)
    (hhex : T.type s = some .hex → 0 ≤ T.rangeNumber w (baseOf (T.type s) 0) p.left) :
    T.rangeNumber w (baseOf (T.type s) 0) p.left ≤ strtoll (baseOf (T.type s) 0) (w s).curr.val ∧
      strtoll (baseOf (T.type s) 0) (w s).curr.val ≤ T.rangeNumber w (baseOf (T.type s) 0) p.right := by
  have hne : T.type s ≠ none := by
    rcases htype with htype | htype <;> rw [htype] <;> exact Option.some_ne_none _
  have hnot : ¬T.IsTri s := by
    rintro (htri | htri) <;> rw [htri] at htype <;> rcases htype with htype | htype <;> cases htype
  have hcurr : (T.currCell w user has s).curr.tri = .no := by rw [currCell, if_neg hnot]; rfl
  have hchosen : T.chosenCell w user has s = T.currCell w user has s := by
    refine if_neg fun h => ?_
    rw [hcurr] at h
    exact Tristate.noConfusion h.2
  have hbounds : ∀ t, -9223372036854775808 ≤ T.rangeNumber w (baseOf (T.type s) 0) t ∧
      T.rangeNumber w (baseOf (T.type s) 0) t ≤ 9223372036854775807 := fun t => strtoll_bounds _ _
  obtain ⟨val, hval⟩ : ∃ val, (w s).curr.val = T.validVal w s val := by
    rw [h.eq_rule hne, rule_curr hne, hchosen, currCell, if_neg hnot]
    exact ⟨_, rfl⟩
  rw [hval, validVal, if_pos htype, hp, Option.elim_some]
  dsimp only
  split_ifs with hleft hright
  · exact ⟨hleft, hright⟩
  · rw [strtoll_rangeText htype (hbounds _).1 (hbounds _).2 fun hx => (hhex hx).trans hle]
    exact ⟨hle, le_rfl⟩
  · rw [strtoll_rangeText htype (hbounds _).1 (hbounds _).2 hhex]
    exact ⟨le_rfl, hle⟩

theorem Solves.in_range_small : ∃ w, Small.table.Solves w Small.user (fun _ => true) ∧
    1 ≤ strtoll 10 (w .size).curr.val ∧ strtoll 10 (w .size).curr.val ≤ 9 := by
  have hw : Small.table.Solves _ Small.user fun _ => true :=
    solves_solve Small.acyclic Small.choices Small.mem_values_of_user
  exact ⟨_, hw, Solves.in_range hw (s := Small.size) (.inl rfl) rfl (by decide) nofun⟩

end Dir842.Kconfig.Table
