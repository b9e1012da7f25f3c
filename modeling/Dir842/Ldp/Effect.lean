import Dir842.Ldp.Network

/-!
# What a router does to what is known of it

A neighbour knows of a router what its messages tell. What a router tells has to do with its local
labels only, and what it knows of a neighbour changes only by the messages of the neighbour.
-/

namespace Dir842.Ldp

variable {R A : Type*}

/-- What the message makes of what is known of the label of the FEC. -/
def told (fec : Fec) (m : Option Label) : Msg A → Option Label
  | .mapping fec' label => if fec' = fec then some label else m
  | .withdraw fec' label => if fec' = fec ∧ m.any (LdeNbr.meant label) then none else m
  | .withdrawWcard label => if m.any (LdeNbr.meant label) then none else m
  | _ => m

theorem told_of_ne {fec fec' : Fec} (h : fec' ≠ fec) (label : Label) (m : Option Label) :
    told fec m (.mapping fec' label : Msg A) = m := if_neg h

theorem told_self (fec : Fec) (label : Label) (m : Option Label) :
    told fec m (.mapping fec label : Msg A) = some label := if_pos rfl

theorem told_withdraw_of_ne {fec fec' : Fec} (h : fec' ≠ fec) (label m : Option Label) :
    told fec m (.withdraw fec' label : Msg A) = m := if_neg fun h' => h h'.1

/-- The message is not about local labels. -/
def Quiet (msg : Msg A) : Prop := ∀ fec m, told fec m msg = m

def replay (fec : Fec) (msgs : List (Msg A)) (m : Option Label) : Option Label :=
  msgs.foldl (told fec) m

theorem replay_append (fec : Fec) (msgs msgs' : List (Msg A)) (m : Option Label) :
    replay fec (msgs ++ msgs') m = replay fec msgs' (replay fec msgs m) := List.foldl_append

theorem replay_quiet {fec : Fec} {msgs : List (Msg A)} (h : ∀ msg ∈ msgs, Quiet msg) (m : Option Label) :
    replay fec msgs m = m := by
  induction msgs with
  | nil => rfl
  | cons msg msgs ih =>
    obtain ⟨hmsg, hmsgs⟩ := List.forall_mem_cons.mp h
    show replay fec msgs (told fec m msg) = m
    rw [hmsg, ih hmsgs]

theorem quiet_release (fec : Fec) (label : Option Label) : Quiet (.release fec label : Msg A) :=
  fun _ _ => rfl

theorem LdeNbr.quiet_sendLabelrelease {ln : LdeNbr A} {fec : Fec} {label : Option Label} :
    ∀ msg ∈ ln.sendLabelrelease fec label, Quiet msg := by
  intro msg hmsg
  rw [sendLabelrelease] at hmsg
  split_ifs at hmsg
  · rw [List.mem_singleton.mp hmsg]
    exact quiet_release _ _
  · cases hmsg

namespace Lde
variable {l l' l'' : Lde R A} {b : R} {fec : Fec}

/-- The router knows and tells the same, but may have heard of more FECs. -/
structure Same (l l' : Lde R A) : Prop where
  nbrs : l'.nbrs = l.nbrs
  enabled : ∀ b, (l'.nbr b).enabled = (l.nbr b).enabled
  recvMap : ∀ b, (l'.nbr b).recvMap = (l.nbr b).recvMap
  localLabel : ∀ fec, (l'.ft fec).localLabel = (l.ft fec).localLabel
  tree : ∀ fec ∈ l.tree, fec ∈ l'.tree

theorem Same.refl (l : Lde R A) : Same l l :=
  ⟨rfl, fun _ => rfl, fun _ => rfl, fun _ => rfl, fun _ => id⟩

theorem Same.trans (h : Same l l') (h' : Same l' l'') : Same l l'' :=
  ⟨h'.nbrs.trans h.nbrs, fun b => (h'.enabled b).trans (h.enabled b),
    fun b => (h'.recvMap b).trans (h.recvMap b), fun fec => (h'.localLabel fec).trans (h.localLabel fec),
    fun fec hfec => h'.tree fec (h.tree fec hfec)⟩

/-- Nothing is known of a FEC that is not in the tree. -/
structure Ok (l : Lde R A) : Prop where
  nodup : l.nbrs.Nodup
  localLabel : ∀ {fec}, fec ∉ l.tree → (l.ft fec).localLabel = none
  recvMap : ∀ {fec b}, fec ∉ l.tree → b ∈ l.nbrs → (l.nbr b).recvMap fec = none

variable [DecidableEq R] [DecidableEq A]

omit [DecidableEq R] [DecidableEq A] in
theorem mem_fecAdd {fec' : Fec} : fec' ∈ (l.fecAdd fec).tree ↔ fec' = fec ∨ fec' ∈ l.tree := by
  rw [fecAdd]
  split_ifs with h
  · refine ⟨.inr, ?_⟩
    rintro (rfl | h')
    · exact h
    · exact h'
  · exact List.mem_orderedInsert _

omit [DecidableEq R] [DecidableEq A] in
theorem fecAdd_eq (l : Lde R A) (fec : Fec) : l.fecAdd fec = { l with tree := (l.fecAdd fec).tree } := by
  rw [fecAdd]
  split_ifs
  · rfl
  · rfl

omit [DecidableEq R] [DecidableEq A] in
theorem same_fecAdd (l : Lde R A) (fec : Fec) : Same l (l.fecAdd fec) := by
  refine ⟨?_, fun b => ?_, fun b => ?_, fun fec' => ?_,
    fun fec' h => mem_fecAdd.mpr (.inr h)⟩ <;>
    rw [fecAdd_eq]

omit [DecidableEq R] [DecidableEq A] in
/-- Only the next hops of a FEC change. -/
theorem same_setNode {fn : FecNode A} (hfn : fn.localLabel = (l.ft fec).localLabel) :
    Same l (l.setNode fec fn) := by
  refine ⟨rfl, fun _ => rfl, fun _ => rfl, fun fec' => ?_, fun _ => id⟩
  by_cases h : fec' = fec
  · subst h
    rw [setNode_ft_self, hfn]
  · rw [setNode_ft_of_ne l h]

omit [DecidableEq R] in
theorem same_setRemote (b : R) (fec : Fec) (label : Option Label) : Same l (l.setRemote b fec label) :=
  same_setNode rfl

omit [DecidableEq A] in
/-- What is known of one neighbour changes in other ways than by its mappings. -/
theorem same_setNbr {ln : LdeNbr A} (henabled : ln.enabled = (l.nbr b).enabled)
    (hrecv : ln.recvMap = (l.nbr b).recvMap) : Same l (l.setNbr b ln) := by
  refine ⟨rfl, fun b' => ?_, fun b' => ?_, fun _ => rfl, fun _ => id⟩ <;> by_cases h : b' = b
  · subst h
    rw [setNbr_nbr_self, henabled]
  · rw [setNbr_nbr_of_ne l h]
  · subst h
    rw [setNbr_nbr_self, hrecv]
  · rw [setNbr_nbr_of_ne l h]

/-! ### Acts -/

/-- The label that the neighbour should know. -/
def adv (l : Lde R A) (b : R) (fec : Fec) : Option Label :=
  if (l.nbr b).enabled fec.family then (l.ft fec).localLabel else none

end Lde

namespace Lde
variable {l l' l'' : Lde R A} {b : R} {fec : Fec} {out : Out R A}

/-- What a router does of its own is told to its neighbours, for the FECs of the families of `P`. -/
structure Act (P : Family → Prop) (l l' : Lde R A) (out : Out R A) : Prop where
  nbrs : l'.nbrs = l.nbrs
  enabled : ∀ b, (l'.nbr b).enabled = (l.nbr b).enabled
  recvMap : ∀ b, (l'.nbr b).recvMap = (l.nbr b).recvMap
  tree : ∀ fec ∈ l.tree, fec ∈ l'.tree
  localLabel : ∀ {fec}, fec ∉ l'.tree → (l'.ft fec).localLabel = (l.ft fec).localLabel
  tells : ∀ {fec b}, P fec.family → b ∈ l.nbrs → replay fec (out b) (l.adv b fec) = l'.adv b fec
  /-- A neighbour that has not been told all mappings yet -/
  tells_none : ∀ {fec b}, P fec.family → b ∈ l.nbrs →
    replay fec (out b) none = none ∨ replay fec (out b) none = l'.adv b fec
  silent : ∀ {b}, b ∉ l.nbrs → out b = []

theorem Same.adv (h : Same l l') (b : R) (fec : Fec) : l'.adv b fec = l.adv b fec := by
  rw [Lde.adv, Lde.adv, h.enabled, h.localLabel]

theorem Same.act {P : Family → Prop} (h : Same l l') : Act P l l' fun _ => [] where
  nbrs := h.nbrs
  enabled := h.enabled
  recvMap := h.recvMap
  tree := h.tree
  localLabel _ := h.localLabel _
  tells _ _ := (h.adv _ _).symm
  tells_none _ _ := .inl rfl
  silent _ := rfl

/-- Only addresses are told. -/
theorem act_of_quiet {P : Family → Prop} (hquiet : ∀ b, ∀ msg ∈ out b, Quiet msg)
    (hsilent : ∀ {b}, b ∉ l.nbrs → out b = []) : Act P l l out where
  nbrs := rfl
  enabled _ := rfl
  recvMap _ := rfl
  tree _ := id
  localLabel _ := rfl
  tells _ _ := replay_quiet (hquiet _) _
  tells_none _ _ := .inl (replay_quiet (hquiet _) _)
  silent := hsilent

theorem Act.same {P : Family → Prop} (h : Act P l l' out) (h' : Same l' l'') : Act P l l'' out where
  nbrs := h'.nbrs.trans h.nbrs
  enabled b := (h'.enabled b).trans (h.enabled b)
  recvMap b := (h'.recvMap b).trans (h.recvMap b)
  tree fec hfec := h'.tree fec (h.tree fec hfec)
  localLabel hfec := (h'.localLabel _).trans (h.localLabel fun hmem => hfec (h'.tree _ hmem))
  tells hP hb := (h.tells hP hb).trans (h'.adv _ _).symm
  tells_none hP hb := by
    rw [h'.adv]
    exact h.tells_none hP hb
  silent := h.silent

theorem Same.act_trans {P : Family → Prop} (h : Same l l') (h' : Act P l' l'' out) : Act P l l'' out where
  nbrs := h'.nbrs.trans h.nbrs
  enabled b := (h'.enabled b).trans (h.enabled b)
  recvMap b := (h'.recvMap b).trans (h.recvMap b)
  tree fec hfec := h'.tree fec (h.tree fec hfec)
  localLabel hfec := (h'.localLabel hfec).trans (h.localLabel _)
  tells hP hb := by
    rw [← h.adv]
    exact h'.tells hP (h.nbrs ▸ hb)
  tells_none hP hb := h'.tells_none hP (h.nbrs ▸ hb)
  silent hb := h'.silent (h.nbrs ▸ hb)

theorem Ok.act {P : Family → Prop} (h : Ok l) (hact : Act P l l' out) : Ok l' where
  nodup := hact.nbrs ▸ h.nodup
  localLabel hfec := (hact.localLabel hfec).trans (h.localLabel fun hmem => hfec (hact.tree _ hmem))
  recvMap {fec b} hfec hb := by
    rw [hact.recvMap]
    exact h.recvMap (fun hmem => hfec (hact.tree _ hmem)) (hact.nbrs ▸ hb)

theorem Ok.same (h : Ok l) (hsame : Same l l') : Ok l' := h.act (hsame.act (P := fun _ => True))

end Lde

end Dir842.Ldp
