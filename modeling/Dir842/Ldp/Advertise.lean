import Dir842.Ldp.Effect

/-!
# What a router tells of its own

A route that comes or goes and a new egress label are told to the neighbours, so that each of them knows
the local labels when it has seen the messages.
-/

namespace Dir842.Ldp

variable {R A : Type*}

namespace LdeNbr
variable (ln : LdeNbr A) (fec : Fec) (label : Label)

@[simp] theorem sendLabelmapping_enabled : (ln.sendLabelmapping fec label).1.enabled = ln.enabled := by
  rw [sendLabelmapping]
  split_ifs <;> rfl

@[simp] theorem sendLabelmapping_recvMap : (ln.sendLabelmapping fec label).1.recvMap = ln.recvMap := by
  rw [sendLabelmapping]
  split_ifs <;> rfl

theorem sendLabelmapping_out :
    (ln.sendLabelmapping fec label).2 = if ln.enabled fec.family then [.mapping fec label] else [] := by
  rw [sendLabelmapping]
  split_ifs <;> rfl

@[simp] theorem sendLabelwithdraw_enabled (label : Option Label) :
    (ln.sendLabelwithdraw fec label).1.enabled = ln.enabled := by
  rw [sendLabelwithdraw]
  split_ifs <;> rfl

@[simp] theorem sendLabelwithdraw_recvMap (label : Option Label) :
    (ln.sendLabelwithdraw fec label).1.recvMap = ln.recvMap := by
  rw [sendLabelwithdraw]
  split_ifs <;> rfl

theorem sendLabelwithdraw_out (label : Option Label) :
    (ln.sendLabelwithdraw fec label).2 = if ln.enabled fec.family then [.withdraw fec label] else [] := by
  rw [sendLabelwithdraw]
  split_ifs <;> rfl

end LdeNbr

namespace Lde
variable {l l' : Lde R A} {fec : Fec}

theorem replay_sendLabelmapping {ln : LdeNbr A} {fec fec' : Fec} {label : Label} (m : Option Label) :
    replay fec' (ln.sendLabelmapping fec label).2 m =
      if fec' = fec ∧ ln.enabled fec.family then some label else m := by
  rw [LdeNbr.sendLabelmapping_out]
  by_cases henabled : ln.enabled fec.family = true
  · rw [if_pos henabled]
    show told fec' m (.mapping fec label : Msg A) = _
    by_cases hfec : fec' = fec
    · subst hfec
      rw [told_self, if_pos ⟨rfl, henabled⟩]
    · rw [told_of_ne (Ne.symm hfec), if_neg fun h => hfec h.1]
  · rw [if_neg henabled, if_neg fun h => henabled h.2]
    rfl

/-! ### A route that comes -/

/-- A local label that is assigned -/
structure Assigns (l : Lde R A) (fec : Fec) (l' : Lde R A) (label : Label) : Prop where
  nbrs : l'.nbrs = l.nbrs
  nbr : l'.nbr = l.nbr
  tree : l'.tree = l.tree
  self : (l'.ft fec).localLabel = some label
  other : ∀ {fec'}, fec' ≠ fec → l'.ft fec' = l.ft fec'

theorem assigns_assignLabel (l : Lde R A) (fec : Fec) (connected : Bool) :
    Assigns l fec (l.assignLabel fec connected).1 (l.assignLabel fec connected).2 := by
  cases connected
  · exact ⟨rfl, rfl, rfl, by simp [assignLabel], fun h => by simp [assignLabel, setNode, h]⟩
  · exact ⟨rfl, rfl, rfl, by simp [assignLabel], fun h => by simp [assignLabel, setNode, h]⟩

theorem Assigns.adv {label : Label} (h : Assigns l fec l' label) (b : R) (fec' : Fec) :
    l'.adv b fec' =
      if fec' = fec then if (l.nbr b).enabled fec.family then some label else none else l.adv b fec' := by
  by_cases hfec : fec' = fec
  · subst hfec
    rw [if_pos rfl, Lde.adv, h.nbr, h.self]
  · rw [if_neg hfec, Lde.adv, Lde.adv, h.nbr, h.other hfec]

variable [DecidableEq R]

theorem same_sendAll {send : LdeNbr A → LdeNbr A × List (Msg A)}
    (henabled : ∀ ln, (send ln).1.enabled = ln.enabled)
    (hrecv : ∀ ln, (send ln).1.recvMap = ln.recvMap) : Same l (l.sendAll send).1 := by
  refine ⟨rfl, fun b => ?_, fun b => ?_, fun _ => rfl, fun _ => id⟩ <;> by_cases hb : b ∈ l.nbrs <;>
    simp only [sendAll, hb, if_true, if_false, henabled, hrecv]

/-- FEC.1 -/
theorem Assigns.act {P : Family → Prop} {label : Label} (h : Assigns l fec l' label)
    (hnone : (l.ft fec).localLabel = none) (hfec : fec ∈ l.tree) :
    Act P l (l'.sendAll fun ln => ln.sendLabelmapping fec label).1
      (l'.sendAll fun ln => ln.sendLabelmapping fec label).2 := by
  have hsame : Same l' (l'.sendAll fun ln => ln.sendLabelmapping fec label).1 :=
    same_sendAll (fun ln => ln.sendLabelmapping_enabled fec label)
      fun ln => ln.sendLabelmapping_recvMap fec label
  have hout : ∀ {b}, b ∈ l.nbrs → (l'.sendAll fun ln => ln.sendLabelmapping fec label).2 b =
      ((l.nbr b).sendLabelmapping fec label).2 := fun {b} hb => by
    rw [← h.nbr]
    exact if_pos (h.nbrs.symm ▸ hb)
  refine Act.same ?_ hsame
  refine ⟨h.nbrs, fun b => by rw [h.nbr], fun b => by rw [h.nbr], fun fec' hfec' => h.tree.symm ▸ hfec',
    fun {fec'} hfec' => ?_, fun {fec' b} _ hb => ?_, fun {fec' b} _ hb => ?_,
    fun hb => if_neg (h.nbrs.symm ▸ hb)⟩
  · have hne : fec' ≠ fec := by
      rintro rfl
      exact hfec' (h.tree.symm ▸ hfec)
    rw [h.other hne]
  · rw [hout hb, replay_sendLabelmapping, h.adv]
    by_cases hne : fec' = fec
    · subst hne
      simp only [true_and, if_true, Lde.adv, hnone, ite_self]
    · simp only [hne, false_and, if_false]
  · rw [hout hb, replay_sendLabelmapping, h.adv]
    by_cases hne : fec' = fec
    · subst hne
      simp only [true_and, if_true, or_true]
    · simp only [hne, false_and, if_false, true_or]

variable [DecidableEq A]

/-- LMp.9 does nothing where the label is the one that is known. -/
theorem checkMapping_known {b : R} {label : Label} (h : (l.nbr b).recvMap fec = some label) :
    (l.checkMapping b fec label).2 = [] ∧ Same l (l.checkMapping b fec label).1 := by
  have hrecv : ((l.fecAdd fec).nbr b).recvMap fec = some label := by rw [(same_fecAdd l fec).recvMap, h]
  refine ⟨?_, (same_fecAdd l fec).trans ((same_setRemote b fec (some label)).trans ?_)⟩
  · simp [checkMapping, hrecv]
  · refine same_setNbr rfl ?_
    show Function.update _ _ _ = _
    rw [← hrecv, Function.update_eq_self]
    rfl

/-- The router after FEC.1 with the messages, and with the next hop. -/
theorem kernelInsert_cases (l : Lde R A) (fec : Fec) (nexthop : A) (priority : ℕ) (connected : Bool) :
    l.kernelInsert fec nexthop priority connected = (l.fecAdd fec, fun _ => []) ∨
    ∃ p, (p = (l.fecAdd fec, fun _ => []) ∨ ((l.fecAdd fec).ft fec).localLabel = none ∧
        p = ((l.fecAdd fec).assignLabel fec connected).1.sendAll fun ln =>
          ln.sendLabelmapping fec ((l.fecAdd fec).assignLabel fec connected).2) ∧
      let l₂ := p.1.setNode fec { p.1.ft fec with
        nexthops := ⟨nexthop, none, priority⟩ :: (p.1.ft fec).nexthops }
      (l.kernelInsert fec nexthop priority connected = (l₂, p.2) ∨
        ∃ b ∈ l₂.nbrs, ∃ label, (l₂.nbr b).recvMap fec = some label ∧
          l.kernelInsert fec nexthop priority connected = ((l₂.checkMapping b fec label).1, p.2)) := by
  by_cases hnh : ((l.fecAdd fec).ft fec).nexthops.any fun fnh =>
      fnh.nexthop = nexthop ∧ fnh.priority = priority
  · exact .inl (if_pos hnh)
  obtain ⟨p, hp, hcases⟩ : ∃ p : Lde R A × Out R A,
      p = (if ((l.fecAdd fec).ft fec).localLabel = none then
        ((l.fecAdd fec).assignLabel fec connected).1.sendAll fun ln =>
          ln.sendLabelmapping fec ((l.fecAdd fec).assignLabel fec connected).2
        else (l.fecAdd fec, fun _ => [])) ∧
      (p = (l.fecAdd fec, fun _ => []) ∨ ((l.fecAdd fec).ft fec).localLabel = none ∧
        p = ((l.fecAdd fec).assignLabel fec connected).1.sendAll fun ln =>
          ln.sendLabelmapping fec ((l.fecAdd fec).assignLabel fec connected).2) := by
    refine ⟨_, rfl, ?_⟩
    split_ifs with hnone
    · exact .inr ⟨hnone, rfl⟩
    · exact .inl rfl
  refine .inr ⟨p, hcases, ?_⟩
  set l₂ := p.1.setNode fec { p.1.ft fec with
    nexthops := ⟨nexthop, none, priority⟩ :: (p.1.ft fec).nexthops }
  have heq : l.kernelInsert fec nexthop priority connected = checkKnown fec nexthop (l₂, p.2) := by
    simp only [l₂, hp]
    exact if_neg hnh
  rw [heq, checkKnown]
  rcases hb : l₂.nbrFindByAddr nexthop with _ | b
  · exact .inl rfl
  dsimp only
  rcases hlabel : (l₂.nbr b).recvMap fec with _ | label
  · exact .inl rfl
  · refine .inr ⟨b, List.mem_of_find?_eq_some hb, label, hlabel, ?_⟩
    dsimp only
    rw [(checkMapping_known hlabel).1, List.append_nil, Function.update_eq_self]

theorem act_kernelInsert {P : Family → Prop} (l : Lde R A) (fec : Fec) (nexthop : A) (priority : ℕ)
    (connected : Bool) :
    Act P l (l.kernelInsert fec nexthop priority connected).1
      (l.kernelInsert fec nexthop priority connected).2 := by
  refine (same_fecAdd l fec).act_trans ?_
  obtain h | ⟨p, hp, h⟩ := kernelInsert_cases l fec nexthop priority connected
  · rw [h]
    exact (Same.refl _).act
  have hact : Act P (l.fecAdd fec) p.1 p.2 := by
    rcases hp with rfl | ⟨hnone, rfl⟩
    · exact (Same.refl _).act
    · exact (assigns_assignLabel (l.fecAdd fec) fec connected).act hnone (mem_fecAdd.mpr (.inl rfl))
  have hnode : Same p.1 (p.1.setNode fec { p.1.ft fec with
      nexthops := ⟨nexthop, none, priority⟩ :: (p.1.ft fec).nexthops }) := same_setNode rfl
  rcases h with h | ⟨b, -, label, hlabel, h⟩
  · rw [h]
    exact hact.same hnode
  · rw [h]
    exact hact.same (hnode.trans (checkMapping_known hlabel).2)

/-! ### A route that goes -/

omit [DecidableEq A] in
/-- SWd.1 and SWd.2 for every neighbour -/
theorem act_withdraw {P : Family → Prop} (hok : Ok l) (fec : Fec) :
    let p := l.sendAll fun ln => ln.sendLabelwithdraw fec (l.ft fec).localLabel
    Act P l (p.1.setNode fec { p.1.ft fec with localLabel := none }) p.2 := by
  intro p
  set label := (l.ft fec).localLabel with hlabel
  have hsame : Same l p.1 := same_sendAll (fun ln => ln.sendLabelwithdraw_enabled fec label)
    fun ln => ln.sendLabelwithdraw_recvMap fec label
  have hadv : ∀ b fec', (p.1.setNode fec { p.1.ft fec with localLabel := none }).adv b fec' =
      if fec' = fec then none else l.adv b fec' := by
    intro b fec'
    show (if (p.1.nbr b).enabled _ then _ else _) = _
    rw [hsame.enabled]
    by_cases hfec : fec' = fec
    · subst hfec
      rw [if_pos rfl, setNode_ft_self, ite_self]
    · rw [if_neg hfec, setNode_ft_of_ne _ hfec]
      rfl
  have hout : ∀ {b}, b ∈ l.nbrs → p.2 b = ((l.nbr b).sendLabelwithdraw fec label).2 := fun hb => if_pos hb
  have hreplay : ∀ {b}, b ∈ l.nbrs → ∀ fec' m, replay fec' (p.2 b) m =
      if (l.nbr b).enabled fec.family ∧ fec' = fec ∧ m.any (LdeNbr.meant label) then none else m := by
    intro b hb fec' m
    rw [hout hb, LdeNbr.sendLabelwithdraw_out]
    by_cases henabled : (l.nbr b).enabled fec.family = true
    · rw [if_pos henabled]
      show (if fec = fec' ∧ _ then _ else _) = _
      simp only [henabled, true_and, eq_comm]
    · rw [if_neg henabled, if_neg fun h => henabled h.1]
      rfl
  refine ⟨hsame.nbrs, hsame.enabled, hsame.recvMap, hsame.tree, fun {fec'} hfec' => ?_,
    fun {fec' b} _ hb => ?_, fun {fec' b} _ hb => ?_, fun hb => if_neg hb⟩
  · by_cases hfec : fec' = fec
    · subst hfec
      rw [setNode_ft_self]
      exact (hok.localLabel hfec').symm
    · rw [setNode_ft_of_ne _ hfec]
      rfl
  · rw [hreplay hb, hadv]
    by_cases hfec : fec' = fec
    · subst hfec
      rw [if_pos rfl]
      by_cases henabled : (l.nbr b).enabled fec'.family = true
      · rw [Lde.adv, if_pos henabled, ← hlabel]
        rcases label with _ | label
        · rw [ite_self]
        · refine if_pos ⟨henabled, rfl, ?_⟩
          simp [LdeNbr.meant]
      · rw [Lde.adv, if_neg henabled, ite_self]
    · rw [if_neg hfec, if_neg fun h => hfec h.2.1]
  · left
    rw [hreplay hb, ite_self]

theorem act_kernelRemove {P : Family → Prop} (hok : Ok l) (fec : Fec) (nexthop : A) (priority : ℕ) :
    Act P l (l.kernelRemove fec nexthop priority).1 (l.kernelRemove fec nexthop priority).2 := by
  set l₁ := l.setNode fec { l.ft fec with
    nexthops := (l.ft fec).nexthops.eraseP fun fnh => fnh.nexthop = nexthop ∧ fnh.priority = priority }
    with hl₁
  have hsame : Same l l₁ := same_setNode rfl
  by_cases hnh : (l.ft fec).nexthops.any fun fnh => fnh.nexthop = nexthop ∧ fnh.priority = priority
  · by_cases hnil : (l₁.ft fec).nexthops = []
    · have heq : l.kernelRemove fec nexthop priority =
          let p := l₁.sendAll fun ln => ln.sendLabelwithdraw fec (l₁.ft fec).localLabel
          (p.1.setNode fec { p.1.ft fec with localLabel := none }, p.2) :=
        (if_pos hnh).trans (if_pos hnil)
      rw [heq]
      exact hsame.act_trans (act_withdraw (hok.same hsame) fec)
    · have heq : l.kernelRemove fec nexthop priority = (l₁, fun _ => []) :=
        (if_pos hnh).trans (if_neg hnil)
      rw [heq]
      exact hsame.act
  · have heq : l.kernelRemove fec nexthop priority = (l, fun _ => []) := if_neg hnh
    rw [heq]
    exact (Same.refl l).act

/-! ### All mappings -/

omit [DecidableEq A] in
theorem snapRound_gives (b : R) (p : Lde R A × List (Msg A)) (fec : Fec) :
    Same p.1 (snapRound b p fec).1 ∧ ∀ fec' m, replay fec' (snapRound b p fec).2 m =
      if fec' = fec ∧ p.1.adv b fec ≠ none then p.1.adv b fec else replay fec' p.2 m := by
  rw [snapRound]
  rcases hlabel : (p.1.ft fec).localLabel with _ | label
  · refine ⟨Same.refl _, fun fec' m => (if_neg fun h => h.2 ?_).symm⟩
    rw [adv, hlabel, ite_self]
  · refine ⟨same_setNbr (LdeNbr.sendLabelmapping_enabled _ _ _) (LdeNbr.sendLabelmapping_recvMap _ _ _),
      fun fec' m => ?_⟩
    rw [replay_append, replay_sendLabelmapping, adv, hlabel]
    by_cases henabled : (p.1.nbr b).enabled fec.family = true
    · rw [if_pos henabled]
      simp only [henabled, and_true, ne_eq, reduceCtorEq, not_false_eq_true]
    · simp only [henabled, and_false, ne_eq, not_true_eq_false, if_false, Bool.false_eq_true]

omit [DecidableEq A] in
theorem fecSnap_loop (b : R) (fecs : List Fec) (p : Lde R A × List (Msg A)) :
    Same p.1 (fecs.foldl (snapRound b) p).1 ∧ ∀ fec m, replay fec (fecs.foldl (snapRound b) p).2 m =
      if fec ∈ fecs ∧ p.1.adv b fec ≠ none then p.1.adv b fec else replay fec p.2 m := by
  induction fecs generalizing p with
  | nil => exact ⟨Same.refl _, fun fec m => (if_neg fun h => List.not_mem_nil h.1).symm⟩
  | cons fec fecs ih =>
    obtain ⟨hsame, hreplay⟩ := snapRound_gives b p fec
    obtain ⟨hsame', hreplay'⟩ := ih (snapRound b p fec)
    refine ⟨hsame.trans hsame', fun fec' m => ?_⟩
    rw [List.foldl_cons, hreplay', hreplay, hsame.adv]
    by_cases hfec : fec' = fec
    · subst hfec
      by_cases hadv : p.1.adv b fec' = none <;> simp [hadv]
    · by_cases hmem : fec' ∈ fecs <;> simp [hfec, hmem]

omit [DecidableEq A] in
/-- A neighbour that has been told nothing, or nothing else, knows all local labels then. -/
theorem fecSnap_gives (hok : Ok l) (b : R) : Same l (l.fecSnap b).1 ∧
    ∀ fec m, m = none ∨ m = l.adv b fec → replay fec (l.fecSnap b).2 m = l.adv b fec := by
  obtain ⟨hsame, hreplay⟩ := fecSnap_loop b l.tree (l, [])
  refine ⟨hsame, fun fec m hm => ?_⟩
  rw [fecSnap, hreplay]
  split_ifs with h
  · rfl
  · have hnone : l.adv b fec = none := by
      by_contra hne
      refine h ⟨?_, hne⟩
      by_contra hfec
      rw [adv, hok.localLabel hfec, ite_self] at hne
      exact hne rfl
    rw [hnone] at hm ⊢
    exact hm.elim id id

end Lde

end Dir842.Ldp
