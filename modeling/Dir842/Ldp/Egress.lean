import Dir842.Ldp.Advertise

/-!
# A new egress label (`lde_change_egress_label`)

The labels that were reserved before are withdrawn with a wildcard, which reaches the other family too.
The FECs of the family are told anew, so that their labels are known.
-/

namespace Dir842.Ldp

variable {R A : Type*}

theorem replay_wcards_none (fec : Fec) (labels : List Label) :
    replay fec (labels.map fun label => (.withdrawWcard (some label) : Msg A)) none = none := by
  induction labels with
  | nil => rfl
  | cons label labels ih => exact ih

/-- Labels that are not reserved are not withdrawn. -/
theorem replay_wcards_some (fec : Fec) {labels : List Label} {label : Label} (h : label ∉ labels) :
    replay fec (labels.map fun label => (.withdrawWcard (some label) : Msg A)) (some label) =
      some label := by
  induction labels with
  | nil => rfl
  | cons label' labels ih =>
    obtain ⟨hne, hnot⟩ := not_or.mp (mt List.mem_cons.mpr h)
    have htold : told fec (some label) (.withdrawWcard (some label') : Msg A) = some label := by
      refine if_neg ?_
      simp [LdeNbr.meant, Ne.symm hne]
    show replay fec _ (told fec (some label) (.withdrawWcard (some label') : Msg A)) = _
    rw [htold, ih hnot]

namespace Lde
variable {l l' l'' : Lde R A} {b : R} {fec : Fec} {family : Family}

theorem egressLabel_le (l : Lde R A) (family : Family) : l.egressLabel family ≤ mplsLabelReservedMax := by
  unfold egressLabel
  split_ifs
  · cases family
    · exact Nat.zero_le _
    · exact Nat.le_of_ble_eq_true rfl
  · exact Nat.le_of_ble_eq_true rfl

theorem egressLabels_le {label : Label} (h : label ∈ l.egressLabels b family) :
    label ≤ mplsLabelReservedMax := by
  unfold egressLabels at h
  split_ifs at h <;> simp at h <;> rcases h with rfl | rfl <;> exact Nat.le_of_ble_eq_true rfl

/-- What becomes of a local label. -/
def relabel (egress : Label) (family : Family) (fec : Fec) (m : Option Label) : Option Label :=
  m.map fun label => if label ≤ mplsLabelReservedMax ∧ fec.family = family then egress else label

def Reserved (l : Lde R A) (family : Family) (fec : Fec) : Prop :=
  fec.family = family ∧ ∃ label ≤ mplsLabelReservedMax, (l.ft fec).localLabel = some label

/-- The FECs of the list have new labels. -/
structure Relabels (family : Family) (fecs : List Fec) (l l' : Lde R A) : Prop where
  nbrs : l'.nbrs = l.nbrs
  enabled : ∀ b, (l'.nbr b).enabled = (l.nbr b).enabled
  recvMap : ∀ b, (l'.nbr b).recvMap = (l.nbr b).recvMap
  tree : l'.tree = l.tree
  explicitNull : l'.explicitNull = l.explicitNull
  localLabel : ∀ fec, (l'.ft fec).localLabel =
    if fec ∈ fecs then relabel (l.egressLabel family) family fec (l.ft fec).localLabel
    else (l.ft fec).localLabel

theorem Relabels.refl (family : Family) (l : Lde R A) : Relabels family [] l l :=
  ⟨rfl, fun _ => rfl, fun _ => rfl, rfl, rfl, fun _ => (if_neg List.not_mem_nil).symm⟩

variable {fecs fecs' : List Fec}

theorem Relabels.egressLabel (h : Relabels family fecs l l') (family' : Family) :
    l'.egressLabel family' = l.egressLabel family' := by
  unfold Lde.egressLabel
  rw [h.explicitNull]

theorem relabel_relabel {egress : Label} (h : egress ≤ mplsLabelReservedMax) (family : Family)
    (fec : Fec) (m : Option Label) :
    relabel egress family fec (relabel egress family fec m) = relabel egress family fec m := by
  rcases m with _ | label
  · rfl
  · by_cases hlabel : label ≤ mplsLabelReservedMax ∧ fec.family = family
    · simp [relabel, hlabel, h]
    · simp [relabel, hlabel]

theorem Relabels.trans (h : Relabels family fecs l l') (h' : Relabels family fecs' l' l'') :
    Relabels family (fecs ++ fecs') l l'' := by
  refine ⟨h'.nbrs.trans h.nbrs, fun b => (h'.enabled b).trans (h.enabled b),
    fun b => (h'.recvMap b).trans (h.recvMap b), h'.tree.trans h.tree,
    h'.explicitNull.trans h.explicitNull, fun fec => ?_⟩
  rw [h'.localLabel, h.localLabel, h.egressLabel]
  by_cases hfec : fec ∈ fecs
  · by_cases hfec' : fec ∈ fecs'
    · rw [if_pos hfec', if_pos hfec, if_pos (List.mem_append_left _ hfec),
        relabel_relabel (l.egressLabel_le family)]
    · rw [if_neg hfec', if_pos hfec, if_pos (List.mem_append_left _ hfec)]
  · by_cases hfec' : fec ∈ fecs'
    · rw [if_pos hfec', if_neg hfec, if_pos (List.mem_append_right _ hfec')]
    · rw [if_neg hfec', if_neg hfec,
        if_neg fun hmem => (List.mem_append.mp hmem).elim hfec hfec']

/-- The new label is reserved too. -/
theorem Relabels.reserved (h : Relabels family fecs l l') :
    l'.Reserved family fec ↔ l.Reserved family fec := by
  refine and_congr_right fun hfec => ?_
  rw [h.localLabel]
  split_ifs
  · rcases (l.ft fec).localLabel with _ | label
    · simp [relabel]
    · by_cases hlabel : label ≤ mplsLabelReservedMax
      · simp [relabel, hlabel, hfec, l.egressLabel_le family]
      · simp [relabel, hlabel]
  · rfl

variable [DecidableEq R]

theorem egressRound_gives (b : R) (family : Family) (p : Lde R A × List (Msg A)) (fec : Fec) :
    Relabels family [fec] p.1 (egressRound b family p fec).1 ∧ ∀ fec' m,
      (p.1.Reserved family fec ∧ (p.1.nbr b).enabled fec.family ∧ fec' = fec →
        replay fec' (egressRound b family p fec).2 m = some (p.1.egressLabel family)) ∧
      (¬(p.1.Reserved family fec ∧ (p.1.nbr b).enabled fec.family ∧ fec' = fec) →
        replay fec' (egressRound b family p fec).2 m = replay fec' p.2 m) := by
  rw [egressRound]
  rcases hlabel : (p.1.ft fec).localLabel with _ | label
  · refine ⟨⟨rfl, fun _ => rfl, fun _ => rfl, rfl, rfl, fun fec' => ?_⟩, fun fec' m => ⟨?_, fun _ => rfl⟩⟩
    · split_ifs with hmem
      · rw [List.mem_singleton.mp hmem, hlabel]
        rfl
      · rfl
    · rintro ⟨⟨-, label, -, hsome⟩, -⟩
      rw [hlabel] at hsome
      cases hsome
  dsimp only
  by_cases hcond : label ≤ mplsLabelReservedMax ∧ fec.family = family
  · rw [if_pos hcond]
    have hreserved : p.1.Reserved family fec := ⟨hcond.2, label, hcond.1, hlabel⟩
    have hsame : Same (p.1.setNode fec { p.1.ft fec with localLabel := some (p.1.egressLabel family) })
        _ := same_setNbr (b := b) (LdeNbr.sendLabelmapping_enabled _ fec (p.1.egressLabel family))
      (LdeNbr.sendLabelmapping_recvMap _ fec (p.1.egressLabel family))
    refine ⟨⟨rfl, hsame.enabled, hsame.recvMap, rfl, rfl, fun fec' => ?_⟩, fun fec' m => ?_⟩
    · dsimp only
      rw [setNbr_ft]
      by_cases hfec : fec' = fec
      · subst hfec
        rw [setNode_ft_self, if_pos (List.mem_singleton_self _), hlabel]
        exact congrArg some (if_pos hcond).symm
      · rw [setNode_ft_of_ne _ hfec, if_neg fun hmem => hfec (List.mem_singleton.mp hmem)]
    · dsimp only
      rw [replay_append, replay_sendLabelmapping]
      refine ⟨fun h => if_pos ⟨h.2.2, h.2.1⟩, fun h => if_neg fun h' => h ⟨hreserved, h'.2, h'.1⟩⟩
  · rw [if_neg hcond]
    refine ⟨⟨rfl, fun _ => rfl, fun _ => rfl, rfl, rfl, fun fec' => ?_⟩, fun fec' m => ⟨?_, fun _ => rfl⟩⟩
    · split_ifs with hmem
      · rw [List.mem_singleton.mp hmem, hlabel]
        exact congrArg some (if_neg hcond).symm
      · rfl
    · rintro ⟨⟨hfec, label', hle, hsome⟩, -⟩
      rw [hlabel] at hsome
      cases hsome
      exact absurd ⟨hle, hfec⟩ hcond

theorem egressRounds_give (b : R) (family : Family) (fecs : List Fec) (p : Lde R A × List (Msg A)) :
    Relabels family fecs p.1 (fecs.foldl (egressRound b family) p).1 ∧ ∀ fec m,
      (p.1.Reserved family fec ∧ (p.1.nbr b).enabled fec.family ∧ fec ∈ fecs →
        replay fec (fecs.foldl (egressRound b family) p).2 m = some (p.1.egressLabel family)) ∧
      (¬(p.1.Reserved family fec ∧ (p.1.nbr b).enabled fec.family ∧ fec ∈ fecs) →
        replay fec (fecs.foldl (egressRound b family) p).2 m = replay fec p.2 m) := by
  induction fecs generalizing p with
  | nil => exact ⟨.refl family p.1, fun fec m => ⟨fun h => absurd h.2.2 List.not_mem_nil, fun _ => rfl⟩⟩
  | cons fec fecs ih =>
    obtain ⟨hrel, hreplay⟩ := egressRound_gives b family p fec
    obtain ⟨hrel', hreplay'⟩ := ih (egressRound b family p fec)
    refine ⟨hrel.trans hrel', fun fec' m => ?_⟩
    obtain ⟨hyes, hno⟩ := hreplay fec' m
    obtain ⟨hyes', hno'⟩ := hreplay' fec' m
    rw [hrel.reserved, hrel.enabled, hrel.egressLabel] at hyes'
    rw [hrel.reserved, hrel.enabled] at hno'
    rw [List.foldl_cons]
    by_cases hmem : p.1.Reserved family fec' ∧ (p.1.nbr b).enabled fec'.family ∧ fec' ∈ fecs
    · exact ⟨fun _ => hyes' hmem, fun h =>
        absurd ⟨hmem.1, hmem.2.1, List.mem_cons_of_mem _ hmem.2.2⟩ h⟩
    · rw [hno' hmem]
      refine ⟨fun h => ?_, fun h => hno fun h' => h ?_⟩
      · rcases List.mem_cons.mp h.2.2 with rfl | h'
        · exact hyes ⟨h.1, h.2.1, rfl⟩
        · exact absurd ⟨h.1, h.2.1, h'⟩ hmem
      · obtain ⟨hres, hen, rfl⟩ := h'
        exact ⟨hres, hen, List.mem_cons_self⟩

theorem wcardRounds_give (b : R) (family : Family) (labels : List Label) (l : Lde R A) :
    Relabels family [] l (labels.foldl (wcardRound b) l) := by
  induction labels generalizing l with
  | nil => exact .refl family l
  | cons label labels ih =>
    have hsame : Same l (wcardRound b l label) := same_setNbr rfl rfl
    have hround : Relabels family [] l (wcardRound b l label) :=
      ⟨rfl, hsame.enabled, hsame.recvMap, rfl, rfl, fun _ => (if_neg List.not_mem_nil).symm⟩
    exact hround.trans (ih _)

/-- What the messages for one neighbour tell it. -/
def Renews (l : Lde R A) (b : R) (family : Family) (msgs : List (Msg A)) : Prop :=
  ∀ fec m, (l.Reserved family fec ∧ (l.nbr b).enabled fec.family ∧ fec ∈ l.tree →
      replay fec msgs m = some (l.egressLabel family)) ∧
    (¬(l.Reserved family fec ∧ (l.nbr b).enabled fec.family ∧ fec ∈ l.tree) →
      replay fec msgs m =
        replay fec ((l.egressLabels b family).map fun label => (.withdrawWcard (some label) : Msg A)) m)

theorem changeEgressFor_gives (l : Lde R A) (b : R) (family : Family) :
    Relabels family l.tree l (l.changeEgressFor b family).1 ∧
      l.Renews b family (l.changeEgressFor b family).2 := by
  have hwcard := wcardRounds_give b family (l.egressLabels b family) l
  obtain ⟨hrel, hreplay⟩ := egressRounds_give b family
    ((l.egressLabels b family).foldl (wcardRound b) l).tree
    ((l.egressLabels b family).foldl (wcardRound b) l,
      (l.egressLabels b family).map fun label => (.withdrawWcard (some label) : Msg A))
  have heq : l.changeEgressFor b family = l.tree.foldl (egressRound b family)
      ((l.egressLabels b family).foldl (wcardRound b) l,
        (l.egressLabels b family).map fun label => .withdrawWcard (some label)) := by
    show List.foldl _ _ (Lde.tree (List.foldl _ _ _)) = _
    rw [hwcard.tree]
  rw [hwcard.tree] at hrel hreplay
  rw [heq]
  refine ⟨hwcard.trans hrel, fun fec m => ?_⟩
  have h := hreplay fec m
  rw [hwcard.reserved, hwcard.enabled, hwcard.egressLabel] at h
  exact h

omit [DecidableEq R] in
theorem Relabels.renews (h : Relabels family fecs l l') {msgs : List (Msg A)}
    (hmsgs : l'.Renews b family msgs) : l.Renews b family msgs := by
  intro fec m
  have h' := hmsgs fec m
  rw [h.reserved, h.enabled, h.egressLabel, h.tree] at h'
  have hlabels : l'.egressLabels b family = l.egressLabels b family := by
    rw [egressLabels, egressLabels, h.explicitNull, h.enabled]
  rwa [hlabels] at h'

theorem egressNbrs_give (family : Family) {bs : List R} (hbs : bs.Nodup) (p : Lde R A × Out R A)
    (hp : ∀ b ∈ bs, p.2 b = []) :
    (∃ fecs, (∀ fec ∈ fecs, fec ∈ p.1.tree) ∧ (bs ≠ [] → ∀ fec ∈ p.1.tree, fec ∈ fecs) ∧
      Relabels family fecs p.1 (bs.foldl (egressNbr family) p).1) ∧
    (∀ b ∈ bs, p.1.Renews b family ((bs.foldl (egressNbr family) p).2 b)) ∧
      ∀ b ∉ bs, (bs.foldl (egressNbr family) p).2 b = p.2 b := by
  induction bs generalizing p with
  | nil => exact ⟨⟨[], nofun, fun h => absurd rfl h, .refl family p.1⟩, nofun, fun _ _ => rfl⟩
  | cons b bs ih =>
    obtain ⟨hb, hbs⟩ := List.nodup_cons.mp hbs
    obtain ⟨hrel, hrenews⟩ := changeEgressFor_gives p.1 b family
    have hother : ∀ {b'}, b' ≠ b → (egressNbr family p b).2 b' = p.2 b' := fun hne =>
      Function.update_of_ne hne _ _
    have hself : (egressNbr family p b).2 b = (p.1.changeEgressFor b family).2 := by
      show Function.update _ _ _ _ = _
      rw [Function.update_self, hp b List.mem_cons_self, List.nil_append]
    obtain ⟨⟨fecs, hfecs, -, hrel'⟩, hrenews', hrest⟩ := ih hbs (egressNbr family p b) fun b' hb' =>
      (hother fun heq => hb (heq ▸ hb')).trans (hp b' (List.mem_cons_of_mem _ hb'))
    have htree : (egressNbr family p b).1.tree = p.1.tree := hrel.tree
    refine ⟨⟨p.1.tree ++ fecs, fun fec hfec => ?_, fun _ fec hfec => List.mem_append_left _ hfec,
      hrel.trans hrel'⟩, fun b' hb' => ?_, fun b' hb' => ?_⟩
    · rcases List.mem_append.mp hfec with hfec | hfec
      · exact hfec
      · exact htree ▸ hfecs fec hfec
    · rw [List.foldl_cons]
      by_cases heq : b' = b
      · subst heq
        rw [hrest b' hb, hself]
        exact hrenews
      · exact hrel.renews (hrenews' b' ((List.mem_cons.mp hb').resolve_left heq))
    · obtain ⟨hne, hnot⟩ := not_or.mp (mt List.mem_cons.mpr hb')
      rw [List.foldl_cons, hrest b' hnot, hother hne]

/-- Wildcards first, then the new label for what had a reserved one. -/
theorem act_changeEgressLabel (hok : Ok l) (family : Family) :
    Act (· = family) l (l.changeEgressLabel family).1 (l.changeEgressLabel family).2 := by
  set l₀ : Lde R A :=
    { l with explicitNull := Function.update l.explicitNull family !l.explicitNull family } with hl₀
  have hnodup : l₀.nbrs.Nodup := hok.nodup
  obtain ⟨⟨fecs, hfecs, hall, hrel⟩, hrenews, hrest⟩ :=
    egressNbrs_give family hnodup (l₀, fun _ => []) fun _ _ => rfl
  set p := l₀.nbrs.foldl (egressNbr family) (l₀, fun _ => []) with hp
  show Act (· = family) l p.1 p.2
  have hadv : ∀ b fec, p.1.adv b fec = if (l.nbr b).enabled fec.family then
      (if fec ∈ fecs then relabel (l₀.egressLabel family) family fec (l.ft fec).localLabel
        else (l.ft fec).localLabel) else none := by
    intro b fec
    rw [Lde.adv, hrel.enabled, hrel.localLabel]
  -- what the neighbour knew before is told anew, or is not touched
  have hknows : ∀ {fec b}, fec.family = family → b ∈ l.nbrs → ∀ m, m = none ∨ m = l.adv b fec →
      (m = none ∧ replay fec (p.2 b) m = none) ∨ replay fec (p.2 b) m = p.1.adv b fec := by
    intro fec b hfec hb m hm
    obtain ⟨hyes, hno⟩ := hrenews b hb fec m
    by_cases hcond : l₀.Reserved family fec ∧ (l₀.nbr b).enabled fec.family ∧ fec ∈ l₀.tree
    · right
      obtain ⟨hres, hen, hmem⟩ := hcond
      obtain ⟨-, label, hle, hlabel⟩ := hres
      have hlabel : (l.ft fec).localLabel = some label := hlabel
      have hen' : (l.nbr b).enabled fec.family = true := hen
      rw [hyes ⟨⟨hfec, label, hle, hlabel⟩, hen, hmem⟩, hadv, if_pos hen',
        if_pos (hall (List.ne_nil_of_mem hb) fec hmem), hlabel]
      exact congrArg some (if_pos ⟨hle, hfec⟩).symm
    rw [hno hcond]
    rcases hm with rfl | rfl
    · exact .inl ⟨rfl, replay_wcards_none fec _⟩
    · by_cases hen : (l.nbr b).enabled fec.family = true
      · right
        rw [hadv, if_pos hen, Lde.adv, if_pos hen]
        rcases hlabel : (l.ft fec).localLabel with _ | label
        · rw [replay_wcards_none]
          split_ifs
          · rfl
          · rfl
        · have hmem : fec ∈ l.tree := by
            by_contra hnot
            rw [hok.localLabel hnot] at hlabel
            cases hlabel
          have hlt : ¬label ≤ mplsLabelReservedMax := fun hle =>
            hcond ⟨⟨hfec, label, hle, hlabel⟩, hen, hmem⟩
          rw [replay_wcards_some fec fun hin => hlt (egressLabels_le hin)]
          split_ifs
          · exact congrArg some (if_neg fun h => hlt h.1).symm
          · rfl
      · left
        have hnone : l.adv b fec = none := if_neg hen
        rw [hnone]
        exact ⟨rfl, replay_wcards_none fec _⟩
  refine ⟨hrel.nbrs, hrel.enabled, hrel.recvMap, fun fec hfec => hrel.tree.symm ▸ hfec,
    fun {fec} hfec => ?_, fun {fec b} hP hb => ?_, fun {fec b} hP hb => ?_, fun hb => hrest _ hb⟩
  · rw [hrel.localLabel]
    exact if_neg fun hmem => hfec (hrel.tree.symm ▸ hfecs fec hmem)
  · rcases hknows hP hb _ (.inr rfl) with ⟨hnone, hreplay⟩ | hreplay
    · rw [hreplay, hadv]
      by_cases hen : (l.nbr b).enabled fec.family = true
      · rw [Lde.adv, if_pos hen] at hnone
        rw [hnone, if_pos hen]
        split_ifs <;> rfl
      · rw [if_neg hen]
    · exact hreplay
  · rcases hknows hP hb none (.inl rfl) with ⟨-, hreplay⟩ | hreplay
    · exact .inl hreplay
    · exact .inr hreplay

end Lde

end Dir842.Ldp
