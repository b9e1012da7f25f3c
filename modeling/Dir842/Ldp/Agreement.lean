import Dir842.Ldp.Egress
import Dir842.Ldp.Hear

/-!
# What the routers know of each other's labels

Whatever the order of the events, what a router will know of a neighbour's labels, once it has seen the
messages that are under way, is what the labels are: all of them when the neighbour has told all its
mappings, and no others before.
-/

namespace Dir842.Ldp

variable {R A : Type*} [DecidableEq R] [DecidableEq A]

namespace Net
variable (σ : Net R A)

/-- What the router `b` knows of the label that `a` has for the FEC. -/
def known (b a : R) (fec : Fec) : Option Label :=
  if (σ.side b a).Up then ((σ.lde b).nbr a).recvMap fec else none

/-- What `b` will know of the label of `a` when it has seen the messages that are under way. -/
def heard (a b : R) (fec : Fec) : Option Label := replay fec (σ.chan a b) (σ.known b a fec)

def Knows (a b : R) (fec : Fec) : Prop :=
  σ.side b a ≠ .gone →
    match σ.side a b with
    | .gone => True
    | .ready => σ.heard a b fec = none
    | .up => σ.heard a b fec = none ∨ σ.heard a b fec = (σ.lde a).adv b fec
    | .full => σ.heard a b fec = (σ.lde a).adv b fec

/-- The two sides of a session and the routers' lists of neighbours go together. -/
structure Sound (cfg : Config R A) : Prop where
  self : ∀ a, σ.side a a = .gone
  ok : ∀ a, (σ.lde a).Ok
  nbrs : ∀ {a b}, b ∈ (σ.lde a).nbrs ↔ (σ.side a b).Up
  enabled : ∀ {a b}, (σ.side a b).Up → ((σ.lde a).nbr b).enabled = cfg.enabled a b
  /-- Nothing is known of a family that the session does not have. -/
  deaf : ∀ {a b fec}, (σ.side a b).Up → cfg.enabled a b fec.family = false →
    ((σ.lde a).nbr b).recvMap fec = none

structure Inv (cfg : Config R A) (family : Family) : Prop where
  sound : σ.Sound cfg
  knows : ∀ {a b fec}, fec.family = family → cfg.enabled b a family → σ.Knows a b fec

variable {σ} {σ' : Net R A} {a b x y : R} {fec : Fec} {cfg : Config R A} {family : Family}

omit [DecidableEq R] [DecidableEq A] in
theorem Knows.of_eq (h : σ.Knows a b fec) (hba : σ'.side b a ≠ .gone → σ.side b a ≠ .gone)
    (hab : σ'.side a b = σ.side a b) (hheard : σ'.heard a b fec = σ.heard a b fec)
    (hadv : (σ'.lde a).adv b fec = (σ.lde a).adv b fec) : σ'.Knows a b fec := by
  intro hne
  rw [hab, hheard, hadv]
  exact h (hba hne)

omit [DecidableEq R] [DecidableEq A] in
theorem Sound.ne_of_side (h : σ.Sound cfg) (hab : σ.side a b ≠ .gone) : b ≠ a := by
  rintro rfl
  exact hab (h.self b)

omit [DecidableEq R] [DecidableEq A] in
/-- A session that is not up is not known to the label decision engine. -/
theorem Sound.not_mem_nbrs (h : σ.Sound cfg) (hside : σ.side a b = .ready) : b ∉ (σ.lde a).nbrs := by
  intro hmem
  have hup := h.nbrs.mp hmem
  rw [hside] at hup
  exact absurd hup (by decide)

/-! ### A router goes on -/

section act
variable {l' : Lde R A} {out : Out R A}

omit [DecidableEq A] in
theorem Sound.act (h : σ.Sound cfg) (hok : l'.Ok) (hnbrs : l'.nbrs = (σ.lde x).nbrs)
    (henabled : ∀ b, (l'.nbr b).enabled = ((σ.lde x).nbr b).enabled)
    (hdeaf : ∀ {b fec}, (σ.side x b).Up → cfg.enabled x b fec.family = false →
      (l'.nbr b).recvMap fec = none) :
    (σ.act x (l', out)).Sound cfg := by
  refine ⟨h.self, fun a => ?_, fun {a b} => ?_, fun {a b} hup => ?_, fun {a b fec} hup hno => ?_⟩ <;>
    by_cases ha : a = x
  · subst ha
    rwa [act_lde_self]
  · rw [act_lde_of_ne ha]
    exact h.ok a
  · subst ha
    rw [act_lde_self, hnbrs]
    exact h.nbrs
  · rw [act_lde_of_ne ha]
    exact h.nbrs
  · subst ha
    rw [act_lde_self, henabled]
    exact h.enabled hup
  · rw [act_lde_of_ne ha]
    exact h.enabled hup
  · subst ha
    rw [act_lde_self]
    exact hdeaf hup hno
  · rw [act_lde_of_ne ha]
    exact h.deaf hup hno

omit [DecidableEq A] in
theorem known_act (hrecv : b = x → (l'.nbr a).recvMap = ((σ.lde x).nbr a).recvMap) :
    (σ.act x (l', out)).known b a fec = σ.known b a fec := by
  rw [known, known, act_side]
  by_cases hb : b = x
  · subst hb
    rw [act_lde_self, hrecv rfl]
  · rw [act_lde_of_ne hb]

omit [DecidableEq A] in
theorem Inv.act (h : σ.Inv cfg family) (hact : Lde.Act (· = family) (σ.lde x) l' out) :
    (σ.act x (l', out)).Inv cfg family := by
  have hdeaf : ∀ {b fec}, (σ.side x b).Up → cfg.enabled x b fec.family = false →
      (l'.nbr b).recvMap fec = none := fun hup hno => by rw [hact.recvMap, h.sound.deaf hup hno]
  refine ⟨h.sound.act ((h.sound.ok x).act hact) hact.nbrs hact.enabled hdeaf,
    fun {a b fec} hfec hen => ?_⟩
  have hold := h.knows (a := a) (b := b) hfec hen
  by_cases ha : a = x
  · subst ha
    have hheard : (σ.act a (l', out)).heard a b fec = replay fec (out b) (σ.heard a b fec) := by
      rw [heard, heard, act_chan_self, replay_append, known_act fun _ => hact.recvMap _]
    intro hne
    have hold := hold hne
    rw [act_side, hheard, act_lde_self]
    rcases hside : σ.side a b with _ | _ | _ | _
    · rw [hside] at hold
      have hnot : b ∉ (σ.lde a).nbrs := h.sound.not_mem_nbrs hside
      show replay fec (out b) (σ.heard a b fec) = none
      rw [hact.silent hnot]
      exact hold
    · rw [hside] at hold
      have hmem : b ∈ (σ.lde a).nbrs := h.sound.nbrs.mpr (by rw [hside]; exact .inl rfl)
      rcases hold with hold | hold
      · rw [hold]
        exact hact.tells_none hfec hmem
      · rw [hold]
        exact .inr (hact.tells hfec hmem)
    · rw [hside] at hold
      have hmem : b ∈ (σ.lde a).nbrs := h.sound.nbrs.mpr (by rw [hside]; exact .inr rfl)
      show replay fec (out b) (σ.heard a b fec) = l'.adv b fec
      rw [show σ.heard a b fec = _ from hold]
      exact hact.tells hfec hmem
    · trivial
  · refine hold.of_eq id rfl ?_ (by rw [act_lde_of_ne ha])
    rw [heard, heard, act_chan_of_ne ha, known_act fun _ => hact.recvMap _]

omit [DecidableEq A] in
/-- A session begins or ends on one side. -/
theorem Sound.act_setSide (h : σ.Sound cfg) {s : Side} (hne : y ≠ x) (hok : l'.Ok)
    (hself : y ∈ l'.nbrs ↔ s.Up) (hnbrs : ∀ b ≠ y, (b ∈ l'.nbrs ↔ b ∈ (σ.lde x).nbrs))
    (hy : s.Up → (l'.nbr y).enabled = cfg.enabled x y)
    (henabled : ∀ b ≠ y, (l'.nbr b).enabled = ((σ.lde x).nbr b).enabled)
    (hydeaf : s.Up → ∀ {fec : Fec}, cfg.enabled x y fec.family = false → (l'.nbr y).recvMap fec = none)
    (hdeaf : ∀ b ≠ y, (l'.nbr b).recvMap = ((σ.lde x).nbr b).recvMap) :
    ((σ.act x (l', out)).setSide x y s).Sound cfg := by
  refine ⟨fun a => ?_, fun a => ?_, fun {a b} => ?_, fun {a b} hup => ?_,
    fun {a b fec} hup hno => ?_⟩
  · rw [setSide_side_of_ne fun hxy => hne (hxy.2.symm.trans hxy.1)]
    exact h.self a
  · rw [setSide_lde]
    by_cases ha : a = x
    · subst ha
      rwa [act_lde_self]
    · rw [act_lde_of_ne ha]
      exact h.ok a
  · rw [setSide_lde]
    by_cases ha : a = x
    · subst ha
      rw [act_lde_self]
      by_cases hb : b = y
      · subst hb
        rwa [setSide_side_self]
      · rw [setSide_side_of_ne fun hxy => hb hxy.2]
        exact (hnbrs b hb).trans h.nbrs
    · rw [act_lde_of_ne ha, setSide_side_of_ne fun hxy => ha hxy.1]
      exact h.nbrs
  · rw [setSide_lde]
    by_cases ha : a = x
    · subst ha
      rw [act_lde_self]
      by_cases hb : b = y
      · subst hb
        rw [setSide_side_self] at hup
        exact hy hup
      · rw [setSide_side_of_ne fun hxy => hb hxy.2] at hup
        rw [henabled b hb]
        exact h.enabled hup
    · rw [setSide_side_of_ne fun hxy => ha hxy.1] at hup
      rw [act_lde_of_ne ha]
      exact h.enabled hup
  · rw [setSide_lde]
    by_cases ha : a = x
    · subst ha
      rw [act_lde_self]
      by_cases hb : b = y
      · subst hb
        rw [setSide_side_self] at hup
        exact hydeaf hup hno
      · rw [setSide_side_of_ne fun hxy => hb hxy.2] at hup
        rw [hdeaf b hb]
        exact h.deaf hup hno
    · rw [setSide_side_of_ne fun hxy => ha hxy.1] at hup
      rw [act_lde_of_ne ha]
      exact h.deaf hup hno

omit [DecidableEq A] in
/-- The other sessions do not notice. -/
theorem Knows.act_setSide (h : σ.Knows a b fec) {s : Side} (hab : ¬(a = x ∧ b = y))
    (hba : ¬(b = x ∧ a = y)) (hout : ∀ b ≠ y, out b = [])
    (hadv : ∀ b ≠ y, l'.adv b fec = (σ.lde x).adv b fec)
    (hrecv : ∀ a ≠ y, (l'.nbr a).recvMap = ((σ.lde x).nbr a).recvMap) :
    ((σ.act x (l', out)).setSide x y s).Knows a b fec := by
  have hknown : ((σ.act x (l', out)).setSide x y s).known b a fec = σ.known b a fec := by
    have hact : (σ.act x (l', out)).known b a fec = σ.known b a fec :=
      known_act fun hb => hrecv a fun ha => hba ⟨hb, ha⟩
    rw [← hact, known, known, setSide_side_of_ne hba, setSide_lde]
  refine h.of_eq ?_ (setSide_side_of_ne hab) ?_ ?_
  · rw [setSide_side_of_ne hba]
    exact id
  · rw [heard, heard, hknown, setSide_chan]
    by_cases ha : a = x
    · subst ha
      rw [act_chan_self]
      show replay fec (σ.chan a b ++ out b) _ = _
      rw [hout b fun hb => hab ⟨rfl, hb⟩, List.append_nil]
    · rw [act_chan_of_ne ha]
  · rw [setSide_lde]
    by_cases ha : a = x
    · subst ha
      rw [act_lde_self]
      exact hadv b fun hb => hab ⟨rfl, hb⟩
    · rw [act_lde_of_ne ha]

end act

/-! ### Sessions -/

omit [DecidableEq R] [DecidableEq A] in
theorem quiet_sendAddress (cfg : Config R A) (a b : R) (addrList : List (IfAddr A)) :
    ∀ msg ∈ cfg.sendAddress a b addrList, Quiet msg := by
  intro msg hmsg
  obtain ⟨family, -, hmsg⟩ := List.mem_flatMap.mp hmsg
  split_ifs at hmsg
  · obtain ⟨addr, -, rfl⟩ := List.mem_map.mp hmsg
    exact fun _ _ => rfl
  · cases hmsg

omit [DecidableEq A] in
theorem Inv.sessionEst (h : σ.Inv cfg family) (hside : σ.side x y = .ready) :
    ((σ.act x ((σ.lde x).nbrNew y (cfg.enabled x y),
      only y (cfg.sendAddress x y (σ.addrList x)))).setSide x y .up).Inv cfg family := by
  have hne : y ≠ x := h.sound.ne_of_side (by rw [hside]; decide)
  have hnot : y ∉ (σ.lde x).nbrs := h.sound.not_mem_nbrs hside
  have hother : ∀ b ≠ y, ((σ.lde x).nbrNew y (cfg.enabled x y)).nbr b = (σ.lde x).nbr b := fun b hb =>
    Lde.frame_nbrNew y _ hb
  refine ⟨h.sound.act_setSide hne ((h.sound.ok x).nbrNew hnot _) ?_ (fun b hb => ?_) (fun _ => ?_)
    (fun b hb => by rw [hother b hb]) (fun _ _ _ => by rw [Lde.nbrNew_self]; rfl)
    (fun b hb => by rw [hother b hb]), fun {a b fec} hfec hen => ?_⟩
  · exact iff_of_true (List.mem_append_right _ (List.mem_singleton_self y)) (.inl rfl)
  · refine List.mem_append.trans (or_iff_left fun hmem => hb ?_)
    exact List.mem_singleton.mp hmem
  · rw [Lde.nbrNew_self]
    rfl
  have hold := h.knows (a := a) (b := b) hfec hen
  by_cases hab : a = x ∧ b = y
  · obtain ⟨rfl, rfl⟩ := hab
    intro hne'
    rw [setSide_side_of_ne fun hxy => hne hxy.1, act_side] at hne'
    have hnone := hold hne'
    rw [hside] at hnone
    rw [setSide_side_self]
    left
    show replay fec ((σ.act a _).chan a b) _ = none
    rw [act_chan_self]
    dsimp only
    rw [only_self, replay_append, replay_quiet (quiet_sendAddress cfg a b _)]
    refine Eq.trans ?_ hnone
    rw [heard, known, known, setSide_side_of_ne fun hxy => hne hxy.1, act_side, setSide_lde,
      act_lde_of_ne hne]
  by_cases hba : b = x ∧ a = y
  · obtain ⟨rfl, rfl⟩ := hba
    refine hold.of_eq (fun _ => by rw [hside]; decide) (setSide_side_of_ne fun hxy => hne hxy.1) ?_ ?_
    · have hknown : σ.known b a fec = none := by
        rw [known, hside]
        exact if_neg (by decide)
      rw [heard, heard, hknown, setSide_chan, act_chan_of_ne hne, known, setSide_lde, act_lde_self,
        Lde.nbrNew_self, setSide_side_self]
      rfl
    · rw [setSide_lde, act_lde_of_ne hne]
  · refine hold.act_setSide hab hba (fun b hb => only_of_ne hb) (fun b hb => ?_)
      fun a ha => by rw [hother a ha]
    rw [Lde.adv, Lde.adv, hother b hb]
    rfl

omit [DecidableEq A] in
theorem Inv.labelMappingFull (h : σ.Inv cfg family) (hside : σ.side x y = .up) :
    ((σ.act x (((σ.lde x).fecSnap y).1,
      only y ((σ.lde x).fecSnap y).2)).setSide x y .full).Inv cfg family := by
  have hne : y ≠ x := h.sound.ne_of_side (by rw [hside]; decide)
  obtain ⟨hsame, hsnap⟩ := Lde.fecSnap_gives (h.sound.ok x) y
  have hup : (σ.side x y).Up := by
    rw [hside]
    exact .inl rfl
  refine ⟨h.sound.act_setSide hne ((h.sound.ok x).same hsame) ?_ (fun b _ => by rw [hsame.nbrs])
    (fun _ => by rw [hsame.enabled, h.sound.enabled hup]) (fun b _ => hsame.enabled b)
    (fun _ _ hno => by rw [hsame.recvMap, h.sound.deaf hup hno]) (fun b _ => hsame.recvMap b),
    fun {a b fec} hfec hen => ?_⟩
  · rw [hsame.nbrs]
    exact iff_of_true (h.sound.nbrs.mpr hup) (.inr rfl)
  have hold := h.knows (a := a) (b := b) hfec hen
  by_cases hab : a = x ∧ b = y
  · obtain ⟨rfl, rfl⟩ := hab
    intro hne'
    rw [setSide_side_of_ne fun hxy => hne hxy.1, act_side] at hne'
    have hheard := hold hne'
    rw [hside] at hheard
    rw [setSide_side_self]
    show replay fec ((σ.act a _).chan a b) _ = ((σ.act a _).lde a).adv b fec
    rw [act_chan_self, act_lde_self]
    dsimp only
    rw [only_self, replay_append, hsame.adv]
    refine Eq.trans ?_ (hsnap fec _ hheard)
    rw [heard, known, known, setSide_side_of_ne fun hxy => hne hxy.1, act_side, setSide_lde,
      act_lde_of_ne hne]
  by_cases hba : b = x ∧ a = y
  · obtain ⟨rfl, rfl⟩ := hba
    refine hold.of_eq (fun _ => by rw [hside]; decide) (setSide_side_of_ne fun hxy => hne hxy.1) ?_ ?_
    · rw [heard, heard, setSide_chan, act_chan_of_ne hne, known, known, setSide_lde, act_lde_self,
        setSide_side_self, hside, hsame.recvMap]
      rfl
    · rw [setSide_lde, act_lde_of_ne hne]
  · exact hold.act_setSide hab hba (fun b hb => only_of_ne hb) (fun b _ => hsame.adv b fec)
      fun a _ => hsame.recvMap a

/-- What holds of the other sessions holds when a router has ended one. -/
theorem close_of (h : σ.Sound cfg) (hup : (σ.side x y).Up)
    (hknows : ∀ {a b fec}, ¬(a = y ∧ b = x) → fec.family = family → cfg.enabled b a family →
      σ.Knows a b fec) : (σ.close x y).Inv cfg family := by
  have hne : y ≠ x := h.ne_of_side hup.ne_gone
  have hsame := Lde.same_setRemotes y (σ.lde x).tree (σ.lde x)
  have hnbrs : ((σ.lde x).nbrDel y).nbrs = (σ.lde x).nbrs.erase y := rfl
  refine ⟨h.act_setSide hne (Lde.ok_nbrDel (h.ok x) y) ?_ (fun b hb => ?_) (fun hgone => ?_)
    (fun b _ => hsame.enabled b) (fun hgone => ?_) (fun b _ => hsame.recvMap b),
    fun {a b fec} hfec hen => ?_⟩
  · rw [hnbrs]
    exact iff_of_false (fun hmem => (List.Nodup.mem_erase_iff (h.ok x).nodup).mp hmem |>.1 rfl) (by decide)
  · rw [hnbrs, List.mem_erase_of_ne hb]
  · exact absurd hgone (by decide)
  · exact absurd hgone (by decide)
  by_cases hab : a = x ∧ b = y
  · obtain ⟨rfl, rfl⟩ := hab
    intro _
    rw [close, setSide_side_self]
    trivial
  by_cases hba : b = x ∧ a = y
  · obtain ⟨rfl, rfl⟩ := hba
    intro hgone
    rw [close, setSide_side_self] at hgone
    exact absurd rfl hgone
  · exact (hknows (fun hxy => hba ⟨hxy.2, hxy.1⟩) hfec hen).act_setSide hab hba (fun _ _ => rfl)
      (fun b _ => hsame.adv b fec) fun a _ => hsame.recvMap a

omit [DecidableEq A] in
/-- A session that is not yet known to the label decision engine ends. -/
theorem Inv.setSide_gone (h : σ.Inv cfg family) (hside : σ.side x y = .ready) :
    (σ.setSide x y .gone).Inv cfg family := by
  have hup : ∀ {a b}, ((σ.setSide x y .gone).side a b).Up ↔ (σ.side a b).Up := by
    intro a b
    by_cases hab : a = x ∧ b = y
    · obtain ⟨rfl, rfl⟩ := hab
      rw [setSide_side_self, hside]
      decide
    · rw [setSide_side_of_ne hab]
  refine ⟨⟨fun a => ?_, h.sound.ok, h.sound.nbrs.trans hup.symm, fun h' => h.sound.enabled (hup.mp h'),
    fun h' => h.sound.deaf (hup.mp h')⟩, fun {a b fec} hfec hen => ?_⟩
  · by_cases ha : a = x ∧ a = y
    · obtain ⟨rfl, rfl⟩ := ha
      exact setSide_side_self
    · rw [setSide_side_of_ne ha]
      exact h.sound.self a
  have hold := h.knows (a := a) (b := b) hfec hen
  by_cases hab : a = x ∧ b = y
  · obtain ⟨rfl, rfl⟩ := hab
    intro _
    rw [setSide_side_self]
    trivial
  · refine hold.of_eq (fun hne hgone => hne ?_) (setSide_side_of_ne hab) ?_ rfl
    · by_cases hba : b = x ∧ a = y
      · obtain ⟨rfl, rfl⟩ := hba
        exact setSide_side_self
      · rw [setSide_side_of_ne hba, hgone]
    · rw [heard, heard, setSide_chan, known, known, setSide_lde]
      simp only [hup]

omit [DecidableEq A] in
/-- A session that is about to begin has no messages. -/
theorem Inv.connect (h : σ.Inv cfg family) (hne : x ≠ y) (hxy : σ.side x y = .gone)
    (hyx : σ.side y x = .gone) :
    ((((σ.setChan x y []).setChan y x []).setSide x y .ready).setSide y x .ready).Inv cfg family := by
  set σ' := (((σ.setChan x y []).setChan y x []).setSide x y .ready).setSide y x .ready with hσ'
  have hside : ∀ {a b}, ¬(a = x ∧ b = y) → ¬(a = y ∧ b = x) → σ'.side a b = σ.side a b := fun h h' => by
    rw [hσ', setSide_side_of_ne h', setSide_side_of_ne h]
    rfl
  have hside₁ : σ'.side x y = .ready := by
    rw [hσ', setSide_side_of_ne fun h => hne h.1, setSide_side_self]
  have hside₂ : σ'.side y x = .ready := setSide_side_self
  have hchan : ∀ {a b}, ¬(a = x ∧ b = y) → ¬(a = y ∧ b = x) → σ'.chan a b = σ.chan a b := fun h h' => by
    rw [hσ', setSide_chan, setSide_chan, setChan_chan_of_ne h', setChan_chan_of_ne h]
  have hchan₁ : σ'.chan x y = [] := by
    rw [hσ', setSide_chan, setSide_chan, setChan_chan_of_ne fun h => hne h.1, setChan_chan_self]
  have hchan₂ : σ'.chan y x = [] := setChan_chan_self
  have hup : ∀ {a b}, (σ'.side a b).Up ↔ (σ.side a b).Up := by
    intro a b
    by_cases hab : a = x ∧ b = y
    · obtain ⟨rfl, rfl⟩ := hab
      rw [hside₁, hxy]
      decide
    by_cases hba : a = y ∧ b = x
    · obtain ⟨rfl, rfl⟩ := hba
      rw [hside₂, hyx]
      decide
    · rw [hside hab hba]
  have hready : ∀ {a b}, σ'.chan a b = [] → σ'.side a b = .ready → σ'.side b a = .ready →
      ∀ fec, σ'.Knows a b fec := by
    intro a b hnil hab hba fec _
    rw [hab]
    show replay fec (σ'.chan a b) (σ'.known b a fec) = none
    have hnot : ¬Side.ready.Up := by decide
    rw [hnil, known, hba, if_neg hnot]
    rfl
  refine ⟨⟨fun a => ?_, h.sound.ok, h.sound.nbrs.trans hup.symm, fun h' => h.sound.enabled (hup.mp h'),
    fun h' => h.sound.deaf (hup.mp h')⟩, fun {a b fec} hfec hen => ?_⟩
  · rw [hside (fun h => hne (h.1.symm.trans h.2)) fun h => hne (h.2.symm.trans h.1)]
    exact h.sound.self a
  by_cases hab : a = x ∧ b = y
  · obtain ⟨rfl, rfl⟩ := hab
    exact hready hchan₁ hside₁ hside₂ fec
  by_cases hba : a = y ∧ b = x
  · obtain ⟨rfl, rfl⟩ := hba
    exact hready hchan₂ hside₂ hside₁ fec
  · have hswap : σ'.side b a = σ.side b a := hside (fun h => hba ⟨h.2, h.1⟩) fun h => hab ⟨h.2, h.1⟩
    refine (h.knows (a := a) (b := b) hfec hen).of_eq (fun hne => hswap ▸ hne) (hside hab hba) ?_ rfl
    rw [heard, heard, hchan hab hba, known, known, hswap]
    rfl

/-! ### Addresses -/

omit [DecidableEq R] [DecidableEq A] in
theorem Inv.setAddrList (h : σ.Inv cfg family) (addrList : R → List (IfAddr A)) :
    ({ σ with addrList := addrList } : Net R A).Inv cfg family :=
  ⟨⟨h.sound.self, h.sound.ok, h.sound.nbrs, h.sound.enabled, h.sound.deaf⟩, h.knows⟩

omit [DecidableEq A] in
theorem Inv.sendIfAddr (h : σ.Inv cfg family) (addr : A) {msg : Msg A} (hmsg : Quiet msg) :
    (σ.act x (σ.lde x, σ.sendIfAddr cfg x addr msg)).Inv cfg family := by
  refine h.act (Lde.act_of_quiet (fun b msg' hmsg' => ?_) fun {b} hb => ?_)
  · rw [Net.sendIfAddr] at hmsg'
    split_ifs at hmsg'
    · rwa [List.mem_singleton.mp hmsg']
    · cases hmsg'
  · exact if_neg fun hup => hb (h.sound.nbrs.mpr hup.1)

theorem Inv.ifAddrAdd (h : σ.Inv cfg family) (ka : IfAddr A) : (σ.ifAddrAdd cfg x ka).Inv cfg family := by
  rw [Net.ifAddrAdd]
  split_ifs
  · exact h
  · exact (h.sendIfAddr ka.addr fun _ _ => rfl).setAddrList _

theorem Inv.ifAddrDel (h : σ.Inv cfg family) (ka : IfAddr A) : (σ.ifAddrDel cfg x ka).Inv cfg family := by
  rw [Net.ifAddrDel]
  split_ifs
  · exact (h.sendIfAddr ka.addr fun _ _ => rfl).setAddrList _
  · exact h

/-! ### Messages -/

section deliver
variable {msg : Msg A} {msgs : List (Msg A)}

omit [DecidableEq A] in
theorem Sound.setChan (h : σ.Sound cfg) : (σ.setChan x y msgs).Sound cfg :=
  ⟨h.self, h.ok, h.nbrs, h.enabled, h.deaf⟩

omit [DecidableEq A] in
theorem Knows.setChan (h : σ.Knows a b fec) (hne : ¬(a = x ∧ b = y)) :
    (σ.setChan x y msgs).Knows a b fec := by
  refine h.of_eq id rfl ?_ rfl
  rw [heard, heard, setChan_chan_of_ne hne]
  rfl

omit [DecidableEq R] [DecidableEq A] in
/-- What is not for the label decision engine says nothing of the families that the session has. -/
theorem told_of_ignore {enabled : Family → Bool} (hmsg : cfg.recv enabled msg = .ignore)
    (hfec : enabled fec.family = true) (m : Option Label) : told fec m msg = m := by
  have hne : ∀ {fec' : Fec} {label : Option Label},
      recvLabelmessage enabled fec'.family label = .ignore → fec' ≠ fec := by
    rintro fec' label hignore rfl
    rw [recvLabelmessage] at hignore
    split_ifs at hignore
  cases msg with
  | mapping fec' label =>
    rw [Config.recv] at hmsg
    split_ifs at hmsg
    exact told_of_ne (hne hmsg) _ _
  | withdraw fec' label => exact told_withdraw_of_ne (hne hmsg) _ _
  | withdrawWcard label => cases hmsg
  | _ => rfl

omit [DecidableEq A] in
theorem Inv.ignore (h : σ.Inv cfg family) (hchan : σ.chan x y = msg :: msgs)
    (hmsg : cfg.recv (cfg.enabled y x) msg = .ignore) : (σ.setChan x y msgs).Inv cfg family := by
  refine ⟨h.sound.setChan, fun {a b fec} hfec hen => ?_⟩
  have hold := h.knows (a := a) (b := b) hfec hen
  by_cases hab : a = x ∧ b = y
  · obtain ⟨rfl, rfl⟩ := hab
    refine hold.of_eq id rfl ?_ rfl
    have htold : told fec (σ.known b a fec) msg = σ.known b a fec :=
      told_of_ignore hmsg (hfec ▸ hen) _
    rw [heard, heard, setChan_chan_self, hchan]
    show replay fec msgs (σ.known b a fec) = replay fec msgs (told fec (σ.known b a fec) msg)
    rw [htold]
  · exact hold.setChan hab

omit [DecidableEq R] [DecidableEq A] in
/-- What is for the label decision engine tells nothing of the families that the session has not. -/
theorem told_of_pass {enabled : Family → Bool} (hmsg : cfg.recv enabled msg = .pass)
    (hfec : enabled fec.family = false) : told fec none msg = none := by
  cases msg with
  | mapping fec' label =>
    refine if_neg ?_
    rintro rfl
    rw [Config.recv] at hmsg
    split_ifs at hmsg
    simp only [recvLabelmessage, hfec, Bool.false_eq_true, if_false] at hmsg
    split_ifs at hmsg
  | withdraw fec' label => exact ite_self _
  | _ => rfl

theorem Inv.pass (h : σ.Inv cfg family) (hup : (σ.side y x).Up) (hchan : σ.chan x y = msg :: msgs)
    (hmsg : cfg.recv (cfg.enabled y x) msg = .pass) :
    ((σ.setChan x y msgs).act y (((σ.lde y).dispatch x msg).1,
      only x ((σ.lde y).dispatch x msg).2)).Inv cfg family := by
  have hmem : x ∈ (σ.lde y).nbrs := h.sound.nbrs.mpr hup
  have hhears := Lde.hears_dispatch (h.sound.ok y) hmem msg
  have hok := Lde.ok_dispatch (h.sound.ok y) hmem msg
  have hne : x ≠ y := h.sound.ne_of_side hup.ne_gone
  set l' := ((σ.lde y).dispatch x msg).1
  set out := ((σ.lde y).dispatch x msg).2
  have hdeaf : ∀ {b fec}, (σ.side y b).Up → cfg.enabled y b fec.family = false →
      (l'.nbr b).recvMap fec = none := by
    intro b fec hup' hno
    have hold := h.sound.deaf hup' hno
    by_cases hb : b = x
    · subst hb
      rw [hhears.self, hold, told_of_pass hmsg hno]
    · rw [hhears.frame.recvMap hb, hold]
  refine ⟨h.sound.setChan.act hok hhears.frame.nbrs hhears.frame.enabled hdeaf,
    fun {a b fec} hfec hen => ?_⟩
  have hold := h.knows (a := a) (b := b) hfec hen
  by_cases hab : a = x ∧ b = y
  · obtain ⟨rfl, rfl⟩ := hab
    refine hold.of_eq id rfl ?_ (by rw [act_lde_of_ne hne]; rfl)
    rw [heard, heard, act_chan_of_ne hne, setChan_chan_self, hchan, known, act_side, act_lde_self]
    show replay fec msgs (if (σ.side b a).Up then (l'.nbr a).recvMap fec else none) =
      replay fec msgs (told fec (σ.known b a fec) msg)
    rw [if_pos hup, hhears.self, known, if_pos hup]
  · have hset : (σ.setChan x y msgs).Knows a b fec := hold.setChan hab
    refine hset.of_eq id rfl ?_ ?_
    · have hknown : ((σ.setChan x y msgs).act y (l', only x out)).known b a fec =
          (σ.setChan x y msgs).known b a fec :=
        known_act fun hb => hhears.frame.recvMap fun ha => hab ⟨ha, hb⟩
      rw [heard, heard, hknown]
      by_cases ha : a = y
      · subst ha
        rw [act_chan_self, replay_append]
        refine replay_quiet (fun msg' hmsg' => ?_) _
        by_cases hb : b = x
        · subst hb
          dsimp only at hmsg'
          rw [only_self] at hmsg'
          exact hhears.quiet msg' hmsg'
        · dsimp only at hmsg'
          rw [only_of_ne hb] at hmsg'
          cases hmsg'
      · rw [act_chan_of_ne ha]
    · by_cases ha : a = y
      · subst ha
        rw [act_lde_self]
        exact hhears.frame.adv b fec
      · rw [act_lde_of_ne ha]

end deliver

/-! ### Runs -/

/-- The flag of no other family is changed. -/
def Keeps (family : Family) : Event R A → Prop
  | .changeEgressLabel _ family' => family' = family
  | _ => True

omit [DecidableEq R] [DecidableEq A] in
theorem inv_init (cfg : Config R A) (family : Family) : cfg.init.Inv cfg family := by
  have hnot : ¬Side.gone.Up := by decide
  refine ⟨⟨fun _ => rfl, fun _ => ⟨List.nodup_nil, fun _ => rfl, fun _ _ => rfl⟩,
    fun {a b} => iff_of_false List.not_mem_nil hnot, fun hup => absurd hup hnot,
    fun hup => absurd hup hnot⟩, fun _ _ hne => ?_⟩
  exact absurd rfl hne

theorem Inv.step (h : σ.Inv cfg family) {e : Event R A} (he : Keeps family e)
    (hstep : σ.step cfg e = some σ') : σ'.Inv cfg family := by
  cases e with
  | kernelInsert a fec nexthop priority connected =>
    cases hstep
    exact h.act (Lde.act_kernelInsert _ fec nexthop priority connected)
  | kernelRemove a fec nexthop priority =>
    cases hstep
    exact h.act (Lde.act_kernelRemove (h.sound.ok a) fec nexthop priority)
  | changeEgressLabel a family' =>
    obtain rfl : family' = family := he
    cases hstep
    exact h.act (Lde.act_changeEgressLabel (h.sound.ok a) family')
  | ifAddrAdd a ka =>
    cases hstep
    exact h.ifAddrAdd ka
  | ifAddrDel a ka =>
    cases hstep
    exact h.ifAddrDel ka
  | connect a b =>
    rw [Net.step] at hstep
    split_ifs at hstep with hgone
    cases hstep
    exact h.connect hgone.1 hgone.2.1 hgone.2.2
  | sessionEst a b =>
    rw [Net.step] at hstep
    split_ifs at hstep with hside
    cases hstep
    exact h.sessionEst hside
  | labelMappingFull a b =>
    rw [Net.step] at hstep
    split_ifs at hstep with hside
    cases hstep
    exact h.labelMappingFull hside
  | neighborDown a b =>
    rw [Net.step] at hstep
    split_ifs at hstep with hside hup
    · cases hstep
      exact h.setSide_gone hside
    · cases hstep
      exact close_of h.sound hup fun _ => h.knows
  | deliver a b =>
    rw [Net.step] at hstep
    rcases hchan : σ.chan a b with _ | ⟨msg, msgs⟩
    · rw [hchan] at hstep
      cases hstep
    rw [hchan] at hstep
    dsimp only at hstep
    split_ifs at hstep with hup
    rcases hmsg : cfg.recv (cfg.enabled b a) msg
    · rw [hmsg] at hstep
      cases hstep
      exact h.pass hup hchan hmsg
    · rw [hmsg] at hstep
      cases hstep
      exact h.ignore hchan hmsg
    · rw [hmsg] at hstep
      cases hstep
      exact close_of h.sound.setChan hup fun hne hfec hen => (h.knows hfec hen).setChan hne

theorem inv_of_reachable (h : Reachable cfg (fun _ => Keeps family) σ) : σ.Inv cfg family := by
  induction h with
  | init => exact inv_init cfg family
  | step _ he hstep ih => exact ih.step he hstep

omit [DecidableEq R] [DecidableEq A] in
/-- Nothing is under way from a router that has told all its mappings. -/
theorem Inv.recvMap_eq (h : σ.Inv cfg fec.family) (hfull : σ.side a b = .full) (hup : (σ.side b a).Up)
    (hchan : σ.chan a b = []) :
    ((σ.lde b).nbr a).recvMap fec =
      if cfg.enabled b a fec.family ∧ cfg.enabled a b fec.family then ((σ.lde a).ft fec).localLabel
      else none := by
  rcases hen : cfg.enabled b a fec.family with _ | _
  · rw [h.sound.deaf hup hen, if_neg fun h => Bool.false_ne_true h.1]
  simp only [true_and]
  have hknows := h.knows rfl hen hup.ne_gone
  rw [hfull] at hknows
  have hheard : σ.heard a b fec = ((σ.lde b).nbr a).recvMap fec := by
    rw [heard, hchan, known, if_pos hup]
    rfl
  have hadv : (σ.lde a).adv b fec =
      if cfg.enabled a b fec.family then ((σ.lde a).ft fec).localLabel else none := by
    rw [Lde.adv, h.sound.enabled (.inr hfull)]
  exact hheard.symm.trans (hknows.trans hadv)

/-- A router that has been told everything knows the label that the neighbour has for the FEC, whatever
has happened in which order, and none of a family that one of them does not have in the session. -/
theorem recvMap_eq_localLabel (h : Reachable cfg (fun _ => Keeps fec.family) σ)
    (hfull : σ.side a b = .full) (hup : (σ.side b a).Up) (hchan : σ.chan a b = []) :
    ((σ.lde b).nbr a).recvMap fec =
      if cfg.enabled b a fec.family ∧ cfg.enabled a b fec.family then ((σ.lde a).ft fec).localLabel
      else none :=
  (inv_of_reachable h).recvMap_eq hfull hup hchan

/-! ### Two routers -/

def run (cfg : Config R A) (es : List (Event R A)) (σ : Net R A) : Option (Net R A) :=
  es.foldlM (fun σ e => σ.step cfg e) σ

/-- Every event satisfies `P` where it happens. -/
def Along (cfg : Config R A) (P : Net R A → Event R A → Prop) : List (Event R A) → Net R A → Prop
  | [], _ => True
  | e :: es, σ => P σ e ∧
    match σ.step cfg e with
    | none => True
    | some σ' => Along cfg P es σ'

theorem Along.reachable {P : Net R A → Event R A → Prop} {es : List (Event R A)}
    (hes : Along cfg P es σ) (h : Reachable cfg P σ) (hrun : run cfg es σ = some σ') :
    Reachable cfg P σ' := by
  induction es generalizing σ with
  | nil =>
    cases hrun
    exact h
  | cons e es ih =>
    obtain ⟨he, hes⟩ := hes
    rw [run, List.foldlM_cons] at hrun
    obtain ⟨σ₁, hstep, hrun⟩ := Option.bind_eq_some_iff.mp hrun
    rw [hstep] at hes
    exact ih hes (h.step he hstep) hrun

/-- Two routers with implicit null labels. -/
def pairConfig : Config Bool ℕ where
  addrFamily _ := .ipv4
  enabled _ _ _ := true
  explicitNull _ _ := false

def pairFec : Fec := ⟨.ipv4, 10, 8⟩

def pairAddr : IfAddr ℕ := ⟨2, 24, none⟩

/-- One router is connected to the prefix, the other reaches it through the first. -/
def pairEvents : List (Event Bool ℕ) :=
  [.ifAddrAdd true pairAddr, .connect true false, .sessionEst true false, .sessionEst false true,
    .kernelInsert true pairFec 9 0 true, .kernelInsert false pairFec 2 0 false,
    .labelMappingFull true false, .deliver true false, .deliver true false, .deliver true false]

def pair (es : List (Event Bool ℕ)) : Net Bool ℕ :=
  (run pairConfig (pairEvents ++ es) pairConfig.init).getD pairConfig.init

theorem run_pair : run pairConfig pairEvents pairConfig.init = some (pair []) :=
  Option.eq_some_of_isSome (show (run pairConfig pairEvents pairConfig.init).isSome by decide)

theorem reachable_pair : Reachable pairConfig (fun _ => Keeps .ipv4) (pair []) := by
  refine Along.reachable ?_ .init run_pair
  iterate 10 refine And.intro trivial ?_
  trivial

theorem recvMap_eq_localLabel_pair : (((pair []).lde false).nbr true).recvMap pairFec = some 3 :=
  (recvMap_eq_localLabel reachable_pair (by decide) (by decide) (by rfl)).trans (by decide)

/-- When the flag of the other family changes, the label is withdrawn like all that are 3 and is not
told again. -/
theorem recvMap_pair_of_changeEgressLabel :
    let σ := pair [.changeEgressLabel true .ipv6, .deliver true false]
    σ.side true false = .full ∧ (σ.side false true).Up ∧ σ.chan true false = [] ∧
      ((σ.lde false).nbr true).recvMap pairFec = none ∧
      ((σ.lde true).ft pairFec).localLabel = some 3 := by
  refine ⟨?_, ?_, rfl, ?_, ?_⟩ <;> decide

end Net

end Dir842.Ldp
