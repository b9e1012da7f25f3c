import Dir842.Ldp.Agreement

/-!
# Where labels are used

A next hop has a label only while it is an address of a neighbour that has told this label for the same
FEC.
-/

namespace Dir842.Ldp

variable {R A : Type*}

namespace Lde
variable {l l' l'' : Lde R A} {b : R} {fec : Fec}

/-- The labels of the next hops are those of the neighbours that have the addresses. -/
structure Fib (l : Lde R A) : Prop where
  nexthops : ∀ {fec}, fec ∉ l.tree → (l.ft fec).nexthops = []
  remote : ∀ {fec fnh label}, fnh ∈ (l.ft fec).nexthops → fnh.remoteLabel = some label →
    ∃ b ∈ l.nbrs, fnh.nexthop ∈ (l.nbr b).addrList ∧ (l.nbr b).recvMap fec = some label

/-- No next hop has a label that it has not had, and nothing is forgotten. -/
structure Kept (l l' : Lde R A) : Prop where
  nbrs : ∀ b ∈ l.nbrs, b ∈ l'.nbrs
  addrList : ∀ b ∈ l.nbrs, ∀ addr ∈ (l.nbr b).addrList, addr ∈ (l'.nbr b).addrList
  recvMap : ∀ b ∈ l.nbrs, (l'.nbr b).recvMap = (l.nbr b).recvMap
  nexthops : ∀ {fec}, fec ∉ l'.tree → (l.ft fec).nexthops = [] → (l'.ft fec).nexthops = []
  remote : ∀ {fec fnh}, fnh ∈ (l'.ft fec).nexthops →
    fnh.remoteLabel = none ∨ fnh ∈ (l.ft fec).nexthops
  tree : ∀ fec ∈ l.tree, fec ∈ l'.tree

theorem Kept.refl (l : Lde R A) : Kept l l :=
  ⟨fun _ => id, fun _ _ _ => id, fun _ _ => rfl, fun _ => id, .inr, fun _ => id⟩

theorem Kept.trans (h : Kept l l') (h' : Kept l' l'') : Kept l l'' where
  nbrs b hb := h'.nbrs b (h.nbrs b hb)
  addrList b hb addr haddr := h'.addrList b (h.nbrs b hb) addr (h.addrList b hb addr haddr)
  recvMap b hb := (h'.recvMap b (h.nbrs b hb)).trans (h.recvMap b hb)
  nexthops hfec hnil := h'.nexthops hfec (h.nexthops (fun hmem => hfec (h'.tree _ hmem)) hnil)
  remote hfnh := (h'.remote hfnh).elim .inl h.remote
  tree fec hfec := h'.tree fec (h.tree fec hfec)

theorem Fib.kept (h : Fib l) (hkept : Kept l l') : Fib l' where
  nexthops hfec := hkept.nexthops hfec (h.nexthops fun hmem => hfec (hkept.tree _ hmem))
  remote {fec fnh label} hfnh hlabel := by
    rcases hkept.remote hfnh with hnone | hmem
    · rw [hnone] at hlabel
      cases hlabel
    · obtain ⟨b, hb, haddr, hrecv⟩ := h.remote hmem hlabel
      exact ⟨b, hkept.nbrs b hb, hkept.addrList b hb _ haddr, by rw [hkept.recvMap b hb, hrecv]⟩

/-- Only local labels and neighbours change. -/
theorem kept_of_nexthops (hnbrs : l'.nbrs = l.nbrs)
    (haddr : ∀ b, (l'.nbr b).addrList = (l.nbr b).addrList)
    (hrecv : ∀ b, (l'.nbr b).recvMap = (l.nbr b).recvMap) (htree : l'.tree = l.tree)
    (hft : ∀ fec, (l'.ft fec).nexthops = (l.ft fec).nexthops) : Kept l l' where
  nbrs _ hb := hnbrs.symm ▸ hb
  addrList b _ _ hmem := (haddr b).symm ▸ hmem
  recvMap b _ := hrecv b
  nexthops _ hnil := (hft _).trans hnil
  remote hfnh := .inr (hft _ ▸ hfnh)
  tree _ hfec := htree.symm ▸ hfec

theorem kept_fecAdd (l : Lde R A) (fec : Fec) : Kept l (l.fecAdd fec) := by
  have htree : ∀ fec' ∈ l.tree, fec' ∈ (l.fecAdd fec).tree := (same_fecAdd l fec).tree
  rw [fecAdd_eq] at htree ⊢
  exact ⟨fun _ => id, fun _ _ _ => id, fun _ _ => rfl, fun _ => id, .inr, htree⟩

/-- Next hops of a known FEC change, and have no new label. -/
theorem kept_setNode (hfec : fec ∈ l.tree) {fn : FecNode A}
    (hfn : ∀ fnh ∈ fn.nexthops, fnh.remoteLabel = none ∨ fnh ∈ (l.ft fec).nexthops) :
    Kept l (l.setNode fec fn) := by
  refine ⟨fun _ => id, fun _ _ _ => id, fun _ _ => rfl, fun {fec'} hfec' hnil => ?_,
    fun {fec' fnh} hfnh => ?_, fun _ => id⟩
  · have hne : fec' ≠ fec := by
      rintro rfl
      exact hfec' hfec
    rwa [setNode_ft_of_ne l hne]
  · by_cases hne : fec' = fec
    · subst hne
      rw [setNode_ft_self] at hfnh
      exact hfn fnh hfnh
    · rw [setNode_ft_of_ne l hne] at hfnh
      exact .inr hfnh

variable [DecidableEq A]

/-- A label is taken from the next hops of a neighbour. -/
theorem kept_setRemote (b : R) (fec : Fec) : Kept l (l.setRemote b fec none) := by
  refine ⟨fun _ => id, fun _ _ _ => id, fun _ _ => rfl, fun {fec'} _ hnil => ?_,
    fun {fec' fnh} hfnh => ?_, fun _ => id⟩ <;> by_cases hne : fec' = fec
  · subst hne
    rw [setRemote, setNode_ft_self, hnil]
    rfl
  · rwa [setRemote, setNode_ft_of_ne l hne]
  · subst hne
    rw [setRemote, setNode_ft_self] at hfnh
    obtain ⟨fnh', hfnh', rfl⟩ := List.mem_map.mp hfnh
    split_ifs
    · exact .inl rfl
    · exact .inr hfnh'
  · rw [setRemote, setNode_ft_of_ne l hne] at hfnh
    exact .inr hfnh

/-- The next hops that are addresses of the neighbour have lost their labels. -/
theorem setRemotes_give (b : R) (fecs : List Fec) (l : Lde R A) :
    Kept l (fecs.foldl (fun l fec => l.setRemote b fec none) l) ∧
      (fecs.foldl (fun l fec => l.setRemote b fec none) l).nbr = l.nbr ∧
      (fecs.foldl (fun l fec => l.setRemote b fec none) l).tree = l.tree ∧
      ∀ fec ∈ fecs, ∀ fnh ∈ ((fecs.foldl (fun l fec => l.setRemote b fec none) l).ft fec).nexthops,
        fnh.nexthop ∈ (l.nbr b).addrList → fnh.remoteLabel = none := by
  induction fecs generalizing l with
  | nil => exact ⟨Kept.refl l, rfl, rfl, nofun⟩
  | cons fec fecs ih =>
    obtain ⟨hkept, hnbr, htree, hnone⟩ := ih (l.setRemote b fec none)
    refine ⟨(kept_setRemote b fec).trans hkept, hnbr, htree, fun fec' hfec' fnh hfnh haddr => ?_⟩
    by_cases hmem : fec' ∈ fecs
    · exact hnone fec' hmem fnh hfnh haddr
    · obtain rfl : fec' = fec := (List.mem_cons.mp hfec').resolve_right hmem
      rcases hkept.remote hfnh with h | h
      · exact h
      · rw [setRemote, setNode_ft_self] at h
        obtain ⟨fnh', -, rfl⟩ := List.mem_map.mp h
        split_ifs at haddr ⊢
        · rfl
        · exact absurd haddr ‹_›

variable [DecidableEq R]

theorem Fib.nbrDel (h : Fib l) (b : R) : Fib (l.nbrDel b) := by
  obtain ⟨hkept, hnbr, htree, hnone⟩ := setRemotes_give b l.tree l
  have hfib := h.kept hkept
  refine ⟨hfib.nexthops, fun {fec fnh label} hfnh hlabel => ?_⟩
  obtain ⟨b', hb', haddr, hrecv⟩ := hfib.remote hfnh hlabel
  have hmem : fec ∈ l.tree := by
    by_contra hnot
    have hnil := hkept.nexthops (by rwa [htree]) (h.nexthops hnot)
    exact absurd (hnil ▸ hfnh : fnh ∈ []) (List.not_mem_nil)
  have hne : b' ≠ b := by
    rintro rfl
    rw [hnbr] at haddr
    rw [hnone fec hmem fnh hfnh haddr] at hlabel
    cases hlabel
  have hnbrs := (same_setRemotes b l.tree l).nbrs
  exact ⟨b', (List.mem_erase_of_ne hne).mpr (hnbrs ▸ hb'), haddr, hrecv⟩

/-- A neighbour tells a new label for a FEC, or takes it back. -/
theorem Fib.setRemote (h : Fib l) (hb : b ∈ l.nbrs) {m : Option Label} {ln : LdeNbr A}
    (haddr : ln.addrList = (l.nbr b).addrList)
    (hother : ∀ fec' ≠ fec, ln.recvMap fec' = (l.nbr b).recvMap fec')
    (hm : ∀ label, m = some label → ln.recvMap fec = some label) (hfec : fec ∈ l.tree) :
    Fib ((l.setRemote b fec m).setNbr b ln) := by
  refine ⟨fun {fec'} hfec' => ?_, fun {fec' fnh label} hfnh hlabel => ?_⟩
  · have hne : fec' ≠ fec := by
      rintro rfl
      exact hfec' hfec
    rw [setNbr_ft, Lde.setRemote, setNode_ft_of_ne l hne]
    exact h.nexthops hfec'
  rw [setNbr_ft, Lde.setRemote] at hfnh
  -- a next hop that keeps its label has it of another neighbour
  have hkeep : ∀ {fec' fnh}, fnh ∈ (l.ft fec').nexthops → fnh.remoteLabel = some label →
      (fec' = fec → fnh.nexthop ∉ (l.nbr b).addrList) →
      ∃ b' ∈ l.nbrs, fnh.nexthop ∈ (((l.setRemote b fec m).setNbr b ln).nbr b').addrList ∧
        (((l.setRemote b fec m).setNbr b ln).nbr b').recvMap fec' = some label := by
    intro fec' fnh hfnh hlabel hnot
    obtain ⟨b', hb', haddr', hrecv⟩ := h.remote hfnh hlabel
    refine ⟨b', hb', ?_⟩
    by_cases heq : b' = b
    · subst heq
      rw [setNbr_nbr_self, haddr]
      refine ⟨haddr', ?_⟩
      rw [hother fec' fun hf => hnot hf haddr', hrecv]
    · rw [setNbr_nbr_of_ne _ heq]
      exact ⟨haddr', hrecv⟩
  by_cases hne : fec' = fec
  · subst hne
    rw [setNode_ft_self] at hfnh
    obtain ⟨fnh', hfnh', rfl⟩ := List.mem_map.mp hfnh
    split_ifs at hlabel ⊢ with haddr'
    · refine ⟨b, hb, ?_⟩
      rw [setNbr_nbr_self, haddr]
      exact ⟨haddr', hm label hlabel⟩
    · exact hkeep hfnh' hlabel fun _ => haddr'
  · rw [setNode_ft_of_ne l hne] at hfnh
    exact hkeep hfnh hlabel fun heq => absurd heq hne

/-! ### Everything a router does -/

omit [DecidableEq A] in
theorem kept_setNbr {ln : LdeNbr A} (haddr : ∀ addr ∈ (l.nbr b).addrList, addr ∈ ln.addrList)
    (hrecv : ln.recvMap = (l.nbr b).recvMap) : Kept l (l.setNbr b ln) := by
  refine ⟨fun _ => id, fun b' _ addr hmem => ?_, fun b' _ => ?_, fun _ => id, .inr, fun _ => id⟩ <;>
    by_cases heq : b' = b
  · subst heq
    rw [setNbr_nbr_self]
    exact haddr addr hmem
  · rwa [setNbr_nbr_of_ne l heq]
  · subst heq
    rw [setNbr_nbr_self, hrecv]
  · rw [setNbr_nbr_of_ne l heq]

omit [DecidableEq A] in
theorem kept_sendAll {send : LdeNbr A → LdeNbr A × List (Msg A)}
    (haddr : ∀ ln, (send ln).1.addrList = ln.addrList)
    (hrecv : ∀ ln, (send ln).1.recvMap = ln.recvMap) : Kept l (l.sendAll send).1 := by
  refine kept_of_nexthops rfl (fun b => ?_) (fun b => ?_) rfl fun _ => rfl <;>
    by_cases hb : b ∈ l.nbrs <;> simp only [sendAll, hb, if_true, if_false, haddr, hrecv]

omit [DecidableEq A] in
theorem kept_nbrNew (hb : b ∉ l.nbrs) (enabled : Family → Bool) : Kept l (l.nbrNew b enabled) := by
  have hother : ∀ b' ∈ l.nbrs, (l.nbrNew b enabled).nbr b' = l.nbr b' := fun b' hb' =>
    frame_nbrNew b enabled fun heq => hb (heq ▸ hb')
  exact ⟨fun b' hb' => List.mem_append_left _ hb', fun b' hb' addr haddr => (hother b' hb').symm ▸ haddr,
    fun b' hb' => by rw [hother b' hb'], fun _ => id, .inr, fun _ => id⟩

omit [DecidableEq A] in
theorem sendLabelmapping_addrList (ln : LdeNbr A) (fec : Fec) (label : Label) :
    (ln.sendLabelmapping fec label).1.addrList = ln.addrList := by
  rw [LdeNbr.sendLabelmapping]
  split_ifs <;> rfl

omit [DecidableEq A] in
theorem sendLabelwithdraw_addrList (ln : LdeNbr A) (fec : Fec) (label : Option Label) :
    (ln.sendLabelwithdraw fec label).1.addrList = ln.addrList := by
  rw [LdeNbr.sendLabelwithdraw]
  split_ifs <;> rfl

omit [DecidableEq R] [DecidableEq A] in
theorem kept_assignLabel (l : Lde R A) (fec : Fec) (connected : Bool) :
    Kept l (l.assignLabel fec connected).1 := by
  refine kept_of_nexthops ?_ (fun b => ?_) (fun b => ?_) ?_ fun fec' => ?_
  · cases connected <;> rfl
  · cases connected <;> rfl
  · cases connected <;> rfl
  · cases connected <;> rfl
  · by_cases hne : fec' = fec
    · subst hne
      cases connected <;> simp [assignLabel]
    · cases connected <;> simp [assignLabel, setNode, hne]

omit [DecidableEq A] in
theorem kept_fecSnap (l : Lde R A) (b : R) : Kept l (l.fecSnap b).1 := by
  have hround : ∀ (p : Lde R A × List (Msg A)) fec, Kept p.1 (snapRound b p fec).1 := by
    intro p fec
    rw [snapRound]
    rcases (p.1.ft fec).localLabel with _ | label
    · exact Kept.refl _
    · exact kept_setNbr (fun addr => by rw [sendLabelmapping_addrList]; exact id)
        (LdeNbr.sendLabelmapping_recvMap _ _ _)
  have hrounds : ∀ (fecs : List Fec) (p : Lde R A × List (Msg A)),
      Kept p.1 (fecs.foldl (snapRound b) p).1 := by
    intro fecs
    induction fecs with
    | nil => exact fun p => Kept.refl p.1
    | cons fec fecs ih => exact fun p => (hround p fec).trans (ih _)
  exact hrounds l.tree (l, [])

omit [DecidableEq A] in
theorem kept_changeEgressLabel (l : Lde R A) (family : Family) : Kept l (l.changeEgressLabel family).1 := by
  have hround : ∀ (b : R) (p : Lde R A × List (Msg A)) fec, Kept p.1 (egressRound b family p fec).1 := by
    intro b p fec
    rw [egressRound]
    rcases (p.1.ft fec).localLabel with _ | label
    · exact Kept.refl _
    dsimp only
    split_ifs
    · have hnode : Kept p.1 (p.1.setNode fec { p.1.ft fec with
          localLabel := some (p.1.egressLabel family) }) := by
        refine kept_of_nexthops rfl (fun _ => rfl) (fun _ => rfl) rfl fun fec' => ?_
        by_cases hne : fec' = fec
        · subst hne
          rw [setNode_ft_self]
        · rw [setNode_ft_of_ne _ hne]
      exact hnode.trans (kept_setNbr (fun addr => by rw [sendLabelmapping_addrList]; exact id)
        (LdeNbr.sendLabelmapping_recvMap _ _ _))
    · exact Kept.refl _
  have hrounds : ∀ (b : R) (fecs : List Fec) (p : Lde R A × List (Msg A)),
      Kept p.1 (fecs.foldl (egressRound b family) p).1 := by
    intro b fecs
    induction fecs with
    | nil => exact fun p => Kept.refl p.1
    | cons fec fecs ih => exact fun p => (hround b p fec).trans (ih _)
  have hwcards : ∀ (b : R) (labels : List Label) (l : Lde R A), Kept l (labels.foldl (wcardRound b) l) := by
    intro b labels
    induction labels with
    | nil => exact fun l => Kept.refl l
    | cons label labels ih =>
      intro l
      have h : Kept l (wcardRound b l label) := kept_setNbr (fun _ => id) rfl
      exact h.trans (ih _)
  have hnbrs : ∀ (bs : List R) (p : Lde R A × Out R A), Kept p.1 (bs.foldl (egressNbr family) p).1 := by
    intro bs
    induction bs with
    | nil => exact fun p => Kept.refl p.1
    | cons b bs ih =>
      intro p
      have h : Kept p.1 (p.1.changeEgressFor b family).1 :=
        (hwcards b (p.1.egressLabels b family) p.1).trans (hrounds b _ (_, _))
      have h' : Kept p.1 (egressNbr family p b).1 := h
      exact h'.trans (ih _)
  have hnew : Kept l { l with
      explicitNull := Function.update l.explicitNull family !l.explicitNull family } :=
    kept_of_nexthops rfl (fun _ => rfl) (fun _ => rfl) rfl fun _ => rfl
  exact hnew.trans (hnbrs l.nbrs (_, _))

theorem kept_kernelRemove (hfib : Fib l) (fec : Fec) (nexthop : A) (priority : ℕ) :
    Kept l (l.kernelRemove fec nexthop priority).1 := by
  by_cases hnh : (l.ft fec).nexthops.any fun fnh => fnh.nexthop = nexthop ∧ fnh.priority = priority
  swap
  · have heq : l.kernelRemove fec nexthop priority = (l, fun _ => []) := if_neg hnh
    rw [heq]
    exact Kept.refl l
  have hfec : fec ∈ l.tree := by
    by_contra hnot
    rw [hfib.nexthops hnot] at hnh
    cases hnh
  set l₁ := l.setNode fec { l.ft fec with
    nexthops := (l.ft fec).nexthops.eraseP fun fnh => fnh.nexthop = nexthop ∧ fnh.priority = priority }
  have hkept : Kept l l₁ := kept_setNode hfec fun fnh hfnh => .inr (List.mem_of_mem_eraseP hfnh)
  by_cases hnil : (l₁.ft fec).nexthops = []
  · have heq : l.kernelRemove fec nexthop priority =
        let p := l₁.sendAll fun ln => ln.sendLabelwithdraw fec (l₁.ft fec).localLabel
        (p.1.setNode fec { p.1.ft fec with localLabel := none }, p.2) :=
      (if_pos hnh).trans (if_pos hnil)
    rw [heq]
    set p := l₁.sendAll fun ln => ln.sendLabelwithdraw fec (l₁.ft fec).localLabel
    have hsend : Kept l₁ p.1 := kept_sendAll (fun ln => sendLabelwithdraw_addrList ln fec _)
      fun ln => ln.sendLabelwithdraw_recvMap fec _
    have hmem : fec ∈ p.1.tree := hfec
    have hnone : Kept p.1 (p.1.setNode fec { p.1.ft fec with localLabel := none }) :=
      kept_setNode hmem fun fnh hfnh => .inr hfnh
    exact (hkept.trans hsend).trans hnone
  · have heq : l.kernelRemove fec nexthop priority = (l₁, fun _ => []) :=
      (if_pos hnh).trans (if_neg hnil)
    rw [heq]
    exact hkept

theorem Fib.checkMapping (h : Fib l) (hb : b ∈ l.nbrs) (fec : Fec) (label : Label) :
    Fib (l.checkMapping b fec label).1 := by
  have hfib := h.kept (kept_fecAdd l fec)
  have hmem : b ∈ (l.fecAdd fec).nbrs := (same_fecAdd l fec).nbrs.symm ▸ hb
  refine hfib.setRemote hmem rfl (fun fec' hne => Function.update_of_ne hne _ _) (fun label' hlabel' => ?_)
    (mem_fecAdd.mpr (.inl rfl))
  cases hlabel'
  exact Function.update_self _ _ _

theorem Fib.withdrawRound (h : Fib l) (hb : b ∈ l.nbrs) (label : Option Label) (hfec : fec ∈ l.tree) :
    Fib (withdrawRound b label l fec) := by
  refine h.setRemote hb ?_ (fun fec' hne => ?_) nofun hfec
  · rw [LdeNbr.withdrawn]
    split_ifs <;> rfl
  · rw [LdeNbr.withdrawn_recvMap]
    exact told_withdraw_of_ne (Ne.symm hne) _ _

/-- No next hop with the address has a label. -/
def Unused (l : Lde R A) (addr : A) : Prop :=
  ∀ fec, ∀ fnh ∈ (l.ft fec).nexthops, fnh.nexthop = addr → fnh.remoteLabel = none

theorem Fib.addressDel (h : Fib l) (b : R) {addr : A} (hunused : l.Unused addr) :
    Fib (l.addressDel b addr) := by
  refine ⟨h.nexthops, fun {fec fnh label} hfnh hlabel => ?_⟩
  obtain ⟨b', hb', haddr, hrecv⟩ := h.remote hfnh hlabel
  refine ⟨b', hb', ?_⟩
  by_cases heq : b' = b
  · subst heq
    rw [Lde.addressDel, setNbr_nbr_self]
    have hne : fnh.nexthop ≠ addr := fun heq => by
      rw [hunused fec fnh hfnh heq] at hlabel
      cases hlabel
    exact ⟨(List.mem_erase_of_ne hne).mpr haddr, hrecv⟩
  · rw [Lde.addressDel, setNbr_nbr_of_ne l heq]
    exact ⟨haddr, hrecv⟩

theorem Fib.dispatch (h : Fib l) (hb : b ∈ l.nbrs) {msg : Msg A}
    (hmsg : ∀ addr, msg = .addressWithdraw addr → l.Unused addr) : Fib (l.dispatch b msg).1 := by
  have hrelease : ∀ (label : Option Label) (l : Lde R A) (fec : Fec), Kept l (releaseRound b label l fec) :=
    fun label l fec => kept_setNbr (fun _ => id) rfl
  cases msg with
  | address addr =>
    refine h.kept ?_
    show Kept l (l.addressAdd b addr)
    rw [addressAdd]
    split_ifs
    · exact Kept.refl l
    · exact kept_setNbr (fun _ hmem => List.mem_append_left _ hmem) rfl
  | addressWithdraw addr => exact h.addressDel b (hmsg addr rfl)
  | mapping fec label => exact h.checkMapping hb fec label
  | withdraw fec label =>
    have hfib := h.kept (kept_fecAdd l fec)
    have hmem : b ∈ (l.fecAdd fec).nbrs := (same_fecAdd l fec).nbrs.symm ▸ hb
    exact hfib.withdrawRound hmem label (mem_fecAdd.mpr (.inl rfl))
  | withdrawWcard label =>
    have hrounds : ∀ (fecs : List Fec) (l : Lde R A), Fib l → b ∈ l.nbrs → (∀ fec ∈ fecs, fec ∈ l.tree) →
        Fib (fecs.foldl (Lde.withdrawRound b label) l) := by
      intro fecs
      induction fecs with
      | nil => exact fun l hl _ _ => hl
      | cons fec fecs ih =>
        intro l hl hb hfecs
        obtain ⟨hfec, hfecs⟩ := List.forall_mem_cons.mp hfecs
        exact ih _ (hl.withdrawRound hb label hfec) hb hfecs
    exact hrounds l.tree l h hb fun _ => id
  | release fec label =>
    refine h.kept ?_
    show Kept l (l.checkRelease b fec label)
    rw [checkRelease]
    split_ifs
    · exact hrelease label l fec
    · exact Kept.refl l
  | releaseWcard label =>
    have hrounds : ∀ (fecs : List Fec) (l : Lde R A), Kept l (fecs.foldl (releaseRound b label) l) := by
      intro fecs
      induction fecs with
      | nil => exact fun l => Kept.refl l
      | cons fec fecs ih => exact fun l => (hrelease label l fec).trans (ih _)
    exact h.kept (hrounds l.tree l)

theorem Fib.kernelInsert (h : Fib l) (fec : Fec) (nexthop : A) (priority : ℕ) (connected : Bool) :
    Fib (l.kernelInsert fec nexthop priority connected).1 := by
  have hfib := h.kept (kept_fecAdd l fec)
  have hmem : fec ∈ (l.fecAdd fec).tree := mem_fecAdd.mpr (.inl rfl)
  obtain heq | ⟨p, hp, heq⟩ := kernelInsert_cases l fec nexthop priority connected
  · rw [heq]
    exact hfib
  obtain ⟨hkept, hfec⟩ : Kept (l.fecAdd fec) p.1 ∧ fec ∈ p.1.tree := by
    rcases hp with rfl | ⟨-, rfl⟩
    · exact ⟨Kept.refl _, hmem⟩
    · set p := (l.fecAdd fec).assignLabel fec connected
      have hsend : Kept p.1 (p.1.sendAll fun ln => ln.sendLabelmapping fec p.2).1 :=
        kept_sendAll (fun ln => sendLabelmapping_addrList ln fec p.2)
          fun ln => ln.sendLabelmapping_recvMap fec p.2
      have hkept := (kept_assignLabel (l.fecAdd fec) fec connected).trans hsend
      exact ⟨hkept, hkept.tree fec hmem⟩
  have hnode : Kept p.1 (p.1.setNode fec { p.1.ft fec with
      nexthops := ⟨nexthop, none, priority⟩ :: (p.1.ft fec).nexthops }) := by
    refine kept_setNode hfec fun fnh hfnh => ?_
    rcases List.mem_cons.mp hfnh with rfl | hfnh
    · exact .inl rfl
    · exact .inr hfnh
  have hfib₂ := (hfib.kept hkept).kept hnode
  rcases heq with heq | ⟨b, hb, label, -, heq⟩
  · rw [heq]
    exact hfib₂
  · rw [heq]
    exact hfib₂.checkMapping hb fec label

end Lde

/-! ### Runs -/

namespace Net
variable [DecidableEq A] [DecidableEq R] {cfg : Config R A} {σ σ' : Net R A}

omit [DecidableEq A] in
theorem fib_act (h : ∀ a, (σ.lde a).Fib) {x : R} {l : Lde R A} {out : Out R A} (hl : l.Fib) (a : R) :
    ((σ.act x (l, out)).lde a).Fib := by
  by_cases ha : a = x
  · subst ha
    rwa [act_lde_self]
  · rw [act_lde_of_ne ha]
    exact h a

/-- The flag of no other family is changed, and an address that a neighbour takes back is not that of a
next hop that has a label. -/
def Calm (family : Family) (σ : Net R A) : Event R A → Prop
  | .deliver a b =>
    match σ.chan a b with
    | .addressWithdraw addr :: _ => (σ.lde b).Unused addr
    | _ => True
  | e => Keeps family e

omit [DecidableEq R] [DecidableEq A] in
theorem Calm.keeps {family : Family} {e : Event R A} (h : Calm family σ e) : Keeps family e := by
  cases e with
  | deliver a b => trivial
  | _ => exact h

omit [DecidableEq R] [DecidableEq A] in
theorem Calm.unused {family : Family} {a b : R} {msg : Msg A} {msgs : List (Msg A)}
    (h : Calm family σ (.deliver a b)) (hchan : σ.chan a b = msg :: msgs) {addr : A}
    (hmsg : msg = .addressWithdraw addr) : (σ.lde b).Unused addr := by
  rw [Calm, hchan, hmsg] at h
  exact h

theorem Sound.fib {family : Family} (hsound : σ.Sound cfg) (h : ∀ a, (σ.lde a).Fib) {e : Event R A}
    (he : Calm family σ e) (hstep : σ.step cfg e = some σ') : ∀ a, (σ'.lde a).Fib := by
  cases e with
  | kernelInsert a fec nexthop priority connected =>
    cases hstep
    exact fib_act h ((h a).kernelInsert fec nexthop priority connected)
  | kernelRemove a fec nexthop priority =>
    cases hstep
    exact fib_act h ((h a).kept (Lde.kept_kernelRemove (h a) fec nexthop priority))
  | changeEgressLabel a family =>
    cases hstep
    exact fib_act h ((h a).kept (Lde.kept_changeEgressLabel _ family))
  | ifAddrAdd a ka =>
    cases hstep
    intro a'
    rw [ifAddrAdd]
    split_ifs
    · exact h a'
    · exact fib_act h (h a) a'
  | ifAddrDel a ka =>
    cases hstep
    intro a'
    rw [ifAddrDel]
    split_ifs
    · exact fib_act h (h a) a'
    · exact h a'
  | connect a b =>
    rw [Net.step] at hstep
    split_ifs at hstep
    cases hstep
    exact h
  | sessionEst a b =>
    rw [Net.step] at hstep
    split_ifs at hstep with hside
    cases hstep
    -- the neighbour has not been known before
    have hb : b ∉ (σ.lde a).nbrs := hsound.not_mem_nbrs hside
    exact fib_act h ((h a).kept (Lde.kept_nbrNew hb _))
  | labelMappingFull a b =>
    rw [Net.step] at hstep
    split_ifs at hstep
    cases hstep
    exact fib_act h ((h a).kept (Lde.kept_fecSnap _ b))
  | neighborDown a b =>
    rw [Net.step] at hstep
    split_ifs at hstep
    · cases hstep
      exact h
    · cases hstep
      exact fib_act h ((h a).nbrDel b)
  | deliver a b =>
    rw [Net.step] at hstep
    rcases hchan : σ.chan a b with _ | ⟨msg, msgs⟩
    · rw [hchan] at hstep
      cases hstep
    rw [hchan] at hstep
    dsimp only at hstep
    split_ifs at hstep with hup
    rcases hmsg : cfg.recv (cfg.enabled b a) msg
    · rw [hmsg] at hstep
      cases hstep
      exact fib_act h ((h b).dispatch (hsound.nbrs.mpr hup) fun _ => he.unused hchan)
    · rw [hmsg] at hstep
      cases hstep
      exact h
    · rw [hmsg] at hstep
      cases hstep
      exact fib_act h ((h b).nbrDel a)

theorem fib_of_reachable {family : Family} (h : Reachable cfg (Calm family) σ) (a : R) :
    (σ.lde a).Fib := by
  induction h generalizing a with
  | init => exact ⟨fun _ => rfl, nofun⟩
  | step h he hstep ih =>
    exact (inv_of_reachable (h.mono fun _ _ => Calm.keeps)).sound.fib ih he hstep a

/-- The label of a next hop is the one that a neighbour with the address has told, and the neighbour
takes the label for the same FEC when everything between the two has arrived. -/
theorem remoteLabel_is_localLabel {b : R} {fec : Fec} {fnh : FecNh A} {label : Label}
    (h : Reachable cfg (Calm fec.family) σ) (hfnh : fnh ∈ ((σ.lde b).ft fec).nexthops)
    (hlabel : fnh.remoteLabel = some label) :
    ∃ a, (σ.side b a).Up ∧ fnh.nexthop ∈ ((σ.lde b).nbr a).addrList ∧
      ((σ.lde b).nbr a).recvMap fec = some label ∧
      (σ.side a b = .full → σ.chan a b = [] →
        ((σ.lde a).ft fec).localLabel = some label) := by
  have hinv := inv_of_reachable (h.mono fun _ _ => Calm.keeps)
  obtain ⟨a, ha, haddr, hrecv⟩ := (fib_of_reachable h b).remote hfnh hlabel
  have hup := hinv.sound.nbrs.mp ha
  refine ⟨a, hup, haddr, hrecv, fun hfull hchan => ?_⟩
  have heq := hrecv.symm.trans (hinv.recvMap_eq hfull hup hchan)
  split_ifs at heq
  exact heq.symm

theorem reachable_calm_pair : Reachable pairConfig (Calm .ipv4) (pair []) := by
  refine Along.reachable ?_ .init run_pair
  iterate 10 refine And.intro trivial ?_
  trivial

theorem remoteLabel_is_localLabel_pair : ∃ a, ((pair []).side false a).Up ∧
    2 ∈ (((pair []).lde false).nbr a).addrList ∧
    (((pair []).lde false).nbr a).recvMap pairFec = some 3 ∧
    ((pair []).side a false = .full → (pair []).chan a false = [] →
      (((pair []).lde a).ft pairFec).localLabel = some 3) := by
  have hfnh : (⟨2, some 3, 0⟩ : FecNh ℕ) ∈ (((pair []).lde false).ft pairFec).nexthops :=
    List.Mem.head _
  exact remoteLabel_is_localLabel reachable_calm_pair hfnh rfl

/-- A next hop whose address is taken back keeps the label, also when the label is withdrawn. -/
theorem remoteLabel_pair_of_ifAddrDel :
    let σ := pair [.ifAddrDel true pairAddr, .kernelRemove true pairFec 9 0, .deliver true false,
      .deliver true false]
    σ.side true false = .full ∧ (σ.side false true).Up ∧ σ.chan true false = [] ∧
      ((σ.lde true).ft pairFec).localLabel = none ∧
      ((σ.lde false).ft pairFec).nexthops.map FecNh.remoteLabel = [some 3] := by
  refine ⟨?_, ?_, rfl, ?_, ?_⟩ <;> decide

end Net

end Dir842.Ldp
