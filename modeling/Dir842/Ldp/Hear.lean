import Dir842.Ldp.Effect

/-!
# What a router makes of what it hears

A message of a neighbour changes what is known of that neighbour as `told` says, and nothing that the
other neighbours are to know.
-/

namespace Dir842.Ldp

variable {R A : Type*}

namespace LdeNbr
variable (ln : LdeNbr A) (fec fec' : Fec) (label : Option Label)

theorem withdrawn_enabled : (ln.withdrawn fec label).enabled = ln.enabled := by
  rw [withdrawn]
  split_ifs <;> rfl

theorem withdrawn_recvMap : (ln.withdrawn fec label).recvMap fec' =
    told fec' (ln.recvMap fec') (.withdraw fec label : Msg A) := by
  by_cases hfec : fec' = fec
  · subst hfec
    show _ = if fec' = fec' ∧ _ then _ else _
    rw [withdrawn]
    by_cases hmeant : (ln.recvMap fec').any (meant label) = true
    · rw [if_pos hmeant, if_pos ⟨rfl, hmeant⟩]
      exact Function.update_self _ _ _
    · rw [if_neg hmeant, if_neg fun h => hmeant h.2]
  · have htold : told fec' (ln.recvMap fec') (.withdraw fec label : Msg A) = ln.recvMap fec' :=
      told_withdraw_of_ne (Ne.symm hfec) _ _
    rw [htold, withdrawn]
    split_ifs
    · exact Function.update_of_ne hfec _ _
    · rfl

end LdeNbr

namespace Lde
variable {l l' l'' : Lde R A} {b : R} {fec : Fec}

/-- Only what is known of the neighbour has changed. -/
structure Frame (b : R) (l l' : Lde R A) : Prop where
  nbrs : l'.nbrs = l.nbrs
  enabled : ∀ b, (l'.nbr b).enabled = (l.nbr b).enabled
  recvMap : ∀ {b'}, b' ≠ b → (l'.nbr b').recvMap = (l.nbr b').recvMap
  localLabel : ∀ fec, (l'.ft fec).localLabel = (l.ft fec).localLabel
  tree : ∀ fec ∈ l.tree, fec ∈ l'.tree

theorem Same.frame (h : Same l l') (b : R) : Frame b l l' :=
  ⟨h.nbrs, h.enabled, fun _ => h.recvMap _, h.localLabel, h.tree⟩

theorem Frame.trans (h : Frame b l l') (h' : Frame b l' l'') : Frame b l l'' :=
  ⟨h'.nbrs.trans h.nbrs, fun b => (h'.enabled b).trans (h.enabled b),
    fun hb => (h'.recvMap hb).trans (h.recvMap hb),
    fun fec => (h'.localLabel fec).trans (h.localLabel fec),
    fun fec hfec => h'.tree fec (h.tree fec hfec)⟩

theorem Frame.adv (h : Frame b l l') (b' : R) (fec : Fec) : l'.adv b' fec = l.adv b' fec := by
  rw [Lde.adv, Lde.adv, h.enabled, h.localLabel]

theorem Frame.ok (h : Frame b l l') (hok : Ok l)
    (hrecv : ∀ fec ∉ l'.tree, b ∈ l.nbrs → (l'.nbr b).recvMap fec = none) : Ok l' := by
  refine ⟨h.nbrs ▸ hok.nodup, fun hfec => ?_, fun {fec b'} hfec hb' => ?_⟩
  · rw [h.localLabel]
    exact hok.localLabel fun hmem => hfec (h.tree _ hmem)
  · rw [h.nbrs] at hb'
    by_cases hb : b' = b
    · subst hb
      exact hrecv fec hfec hb'
    · rw [h.recvMap hb]
      exact hok.recvMap (fun hmem => hfec (h.tree _ hmem)) hb'

/-- What is known of the neighbour changes by the message, and what is sent is not about labels of
the router's own. -/
structure Hears (b : R) (msg : Msg A) (l l' : Lde R A) (out : List (Msg A)) : Prop where
  frame : Frame b l l'
  self : ∀ fec, (l'.nbr b).recvMap fec = told fec ((l.nbr b).recvMap fec) msg
  quiet : ∀ msg' ∈ out, Quiet msg'

theorem Same.hears {msg : Msg A} (h : Same l l') (hmsg : Quiet msg) : Hears b msg l l' [] :=
  ⟨h.frame b, fun fec => by rw [hmsg, h.recvMap], nofun⟩

variable [DecidableEq R]

theorem frame_setNbr {ln : LdeNbr A} (henabled : ln.enabled = (l.nbr b).enabled) :
    Frame b l (l.setNbr b ln) := by
  refine ⟨rfl, fun b' => ?_, fun hb => by rw [setNbr_nbr_of_ne l hb], fun _ => rfl, fun _ => id⟩
  by_cases hb : b' = b
  · subst hb
    rw [setNbr_nbr_self, henabled]
  · rw [setNbr_nbr_of_ne l hb]

theorem same_releaseRound (b : R) (label : Option Label) (l : Lde R A) (fec : Fec) :
    Same l (releaseRound b label l fec) := same_setNbr rfl rfl

theorem same_releaseRounds (b : R) (label : Option Label) (fecs : List Fec) (l : Lde R A) :
    Same l (fecs.foldl (releaseRound b label) l) := by
  induction fecs generalizing l with
  | nil => exact Same.refl l
  | cons fec fecs ih => exact (same_releaseRound b label l fec).trans (ih _)

variable [DecidableEq A]

theorem withdrawRound_gives (b : R) (label : Option Label) (l : Lde R A) (fec : Fec) :
    Frame b l (withdrawRound b label l fec) ∧ ∀ fec', ((withdrawRound b label l fec).nbr b).recvMap fec' =
      told fec' ((l.nbr b).recvMap fec') (.withdraw fec label : Msg A) := by
  refine ⟨((same_setRemote b fec none).frame b).trans
    (frame_setNbr (LdeNbr.withdrawn_enabled _ _ _)), fun fec' => ?_⟩
  rw [withdrawRound, setNbr_nbr_self, LdeNbr.withdrawn_recvMap]

theorem withdrawRounds_give (b : R) (label : Option Label) (fecs : List Fec) (l : Lde R A) :
    Frame b l (fecs.foldl (withdrawRound b label) l) ∧
      ∀ fec, ((fecs.foldl (withdrawRound b label) l).nbr b).recvMap fec =
        if fec ∈ fecs ∧ ((l.nbr b).recvMap fec).any (LdeNbr.meant label) then none
        else (l.nbr b).recvMap fec := by
  induction fecs generalizing l with
  | nil => exact ⟨(Same.refl l).frame b, fun fec => (if_neg fun h => List.not_mem_nil h.1).symm⟩
  | cons fec fecs ih =>
    obtain ⟨hframe, hrecv⟩ := withdrawRound_gives b label l fec
    obtain ⟨hframe', hrecv'⟩ := ih (withdrawRound b label l fec)
    refine ⟨hframe.trans hframe', fun fec' => ?_⟩
    rw [List.foldl_cons, hrecv', hrecv]
    show (if fec' ∈ fecs ∧ (if fec = fec' ∧ _ then _ else _ : Option Label).any _ then _
      else if fec = fec' ∧ _ then _ else _) = _
    by_cases hmeant : ((l.nbr b).recvMap fec').any (LdeNbr.meant label) = true
    · by_cases hfec : fec' = fec
      · subst hfec
        simp [hmeant]
      · simp [hmeant, hfec, Ne.symm hfec]
    · simp [hmeant]

theorem hears_checkMapping (b : R) (fec : Fec) (label : Label) :
    Hears b (.mapping fec label) l (l.checkMapping b fec label).1 (l.checkMapping b fec label).2 := by
  have hsame := same_fecAdd l fec
  refine ⟨(hsame.frame b).trans (((same_setRemote b fec (some label)).frame b).trans (frame_setNbr rfl)),
    fun fec' => ?_, fun msg' hmsg' => ?_⟩
  · show ((setNbr _ b _).nbr b).recvMap fec' = if fec = fec' then some label else _
    rw [setNbr_nbr_self]
    show Function.update ((l.fecAdd fec).nbr b).recvMap fec (some label) fec' = _
    rw [hsame.recvMap, Function.update_apply]
    simp only [eq_comm]
  · rw [checkMapping] at hmsg'
    dsimp only at hmsg'
    split_ifs at hmsg'
    · exact LdeNbr.quiet_sendLabelrelease msg' hmsg'
    · cases hmsg'

theorem hears_checkWithdraw (b : R) (fec : Fec) (label : Option Label) :
    Hears b (.withdraw fec label) l (l.checkWithdraw b fec label).1 (l.checkWithdraw b fec label).2 := by
  have hsame : Same l ((l.fecAdd fec).setRemote b fec none) :=
    (same_fecAdd l fec).trans (same_setRemote b fec none)
  refine ⟨(hsame.frame b).trans (frame_setNbr (LdeNbr.withdrawn_enabled _ _ _)), fun fec' => ?_,
    LdeNbr.quiet_sendLabelrelease⟩
  show ((setNbr _ b _).nbr b).recvMap fec' = _
  rw [setNbr_nbr_self, LdeNbr.withdrawn_recvMap, hsame.recvMap]

theorem hears_checkWithdrawWcard (hok : Ok l) (hb : b ∈ l.nbrs) (label : Option Label) :
    Hears b (.withdrawWcard label) l (l.checkWithdrawWcard b label).1 (l.checkWithdrawWcard b label).2 := by
  obtain ⟨hframe, hrecv⟩ := withdrawRounds_give b label l.tree l
  refine ⟨hframe, fun fec => (hrecv fec).trans ?_, fun msg' hmsg' => ?_⟩
  · show _ = if _ then _ else _
    by_cases hfec : fec ∈ l.tree
    · simp only [hfec, true_and]
    · rw [hok.recvMap hfec hb]
      simp
  · rw [List.mem_singleton.mp hmsg']
    exact fun _ _ => rfl

theorem same_addressAdd (b : R) (addr : A) : Same l (l.addressAdd b addr) := by
  rw [addressAdd]
  split_ifs
  · exact Same.refl l
  · exact same_setNbr rfl rfl

omit [DecidableEq A] in
theorem same_checkRelease (b : R) (fec : Fec) (label : Option Label) :
    Same l (l.checkRelease b fec label) := by
  rw [checkRelease]
  split_ifs
  · exact same_releaseRound b label l fec
  · exact Same.refl l

theorem hears_dispatch (hok : Ok l) (hb : b ∈ l.nbrs) (msg : Msg A) :
    Hears b msg l (l.dispatch b msg).1 (l.dispatch b msg).2 := by
  cases msg with
  | address addr => exact (same_addressAdd b addr).hears fun _ _ => rfl
  | addressWithdraw addr =>
    have hsame : Same l (l.addressDel b addr) := same_setNbr rfl rfl
    exact hsame.hears fun _ _ => rfl
  | mapping fec label => exact hears_checkMapping b fec label
  | withdraw fec label => exact hears_checkWithdraw b fec label
  | withdrawWcard label => exact hears_checkWithdrawWcard hok hb label
  | release fec label => exact (same_checkRelease b fec label).hears fun _ _ => rfl
  | releaseWcard label => exact (same_releaseRounds b label l.tree l).hears fun _ _ => rfl

/-- The FECs that are known are in the tree. -/
theorem ok_dispatch (hok : Ok l) (hb : b ∈ l.nbrs) (msg : Msg A) : Ok (l.dispatch b msg).1 := by
  have h := hears_dispatch hok hb msg
  refine h.frame.ok hok fun fec hfec _ => ?_
  have hnone : (l.nbr b).recvMap fec = none := hok.recvMap (fun hmem => hfec (h.frame.tree _ hmem)) hb
  rw [h.self, hnone]
  cases msg with
  | mapping fec' label =>
    refine if_neg ?_
    rintro rfl
    exact hfec (mem_fecAdd.mpr (.inl rfl))
  | withdraw fec' label => exact ite_self _
  | _ => rfl

/-! ### Neighbours -/

omit [DecidableEq A] in
theorem frame_nbrNew (b : R) (enabled : Family → Bool) {b' : R} (hb : b' ≠ b) :
    ((l.nbrNew b enabled).nbr b') = l.nbr b' := setNbr_nbr_of_ne l hb _

omit [DecidableEq A] in
theorem nbrNew_self (b : R) (enabled : Family → Bool) :
    (l.nbrNew b enabled).nbr b = LdeNbr.new enabled := setNbr_nbr_self l b _

omit [DecidableEq A] in
theorem Ok.nbrNew (hok : Ok l) (hb : b ∉ l.nbrs) (enabled : Family → Bool) :
    Ok (l.nbrNew b enabled) := by
  refine ⟨List.nodup_append.mpr ⟨hok.nodup, List.nodup_singleton b, ?_⟩, hok.localLabel, ?_⟩
  · rintro x hx y hy rfl
    rw [List.mem_singleton.mp hy] at hx
    exact hb hx
  · intro fec b' hfec hb'
    by_cases heq : b' = b
    · subst heq
      rw [nbrNew_self]
      rfl
    · rw [frame_nbrNew b enabled heq]
      refine hok.recvMap hfec ((List.mem_append.mp hb').resolve_right fun h => heq ?_)
      exact List.mem_singleton.mp h

omit [DecidableEq R] in
theorem same_setRemotes (b : R) (fecs : List Fec) (l : Lde R A) :
    Same l (fecs.foldl (fun l fec => l.setRemote b fec none) l) := by
  induction fecs generalizing l with
  | nil => exact Same.refl l
  | cons fec fecs ih => exact (same_setRemote b fec none).trans (ih _)

theorem ok_nbrDel (hok : Ok l) (b : R) : Ok (l.nbrDel b) := by
  have hsame := same_setRemotes b l.tree l
  have hok' := hok.same hsame
  refine ⟨hok.nodup.erase b, hok'.localLabel, fun hfec hb' => hok'.recvMap hfec ?_⟩
  rw [hsame.nbrs]
  exact List.mem_of_mem_erase hb'

end Lde

end Dir842.Ldp
