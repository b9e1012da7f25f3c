import Dir842.Ldp.Lde

/-!
# Label switching routers and their sessions

Every router takes its routes from its kernel and its messages from its neighbours, in any order. The
messages of a session come in the order in which they are sent, and a session that one side has ended
is not taken up again before the other side has ended it too.
-/

namespace Dir842.Ldp

/-- One side of a session. -/
inductive Side
  /-- Connected, not yet `NBR_STA_OPER`. -/
  | ready
  /-- The neighbour is known to the label decision engine. -/
  | up
  /-- The neighbour has been told all mappings. -/
  | full
  /-- There is no session, or this side has ended it. -/
  | gone
deriving DecidableEq

def Side.Up (s : Side) : Prop := s = .up ∨ s = .full

instance (s : Side) : Decidable s.Up := inferInstanceAs (Decidable (_ ∨ _))

theorem Side.Up.ne_gone {s : Side} (h : s.Up) : s ≠ .gone := by
  rintro rfl
  exact absurd h (by decide)

/-- `struct if_addr` -/
structure IfAddr (A : Type*) where
  addr : A
  prefixlen : ℕ
  dstbrd : Option A
deriving DecidableEq

structure Config (R A : Type*) where
  addrFamily : A → Family
  /-- What `nbr_new` makes of a neighbour's hello. -/
  enabled : R → R → Family → Bool
  explicitNull : R → Family → Bool

structure Net (R A : Type*) where
  lde : R → Lde R A
  /-- `global.addr_list` -/
  addrList : R → List (IfAddr A)
  /-- What the first router has sent to the second and the second has not seen yet. -/
  chan : R → R → List (Msg A)
  side : R → R → Side

inductive Event (R A : Type*)
  | kernelInsert (a : R) (fec : Fec) (nexthop : A) (priority : ℕ) (connected : Bool)
  | kernelRemove (a : R) (fec : Fec) (nexthop : A) (priority : ℕ)
  | changeEgressLabel (a : R) (family : Family)
  | ifAddrAdd (a : R) (ka : IfAddr A)
  | ifAddrDel (a : R) (ka : IfAddr A)
  | connect (a b : R)
  /-- `NBR_ACT_SESSION_EST` -/
  | sessionEst (a b : R)
  /-- `IMSG_LABEL_MAPPING_FULL` -/
  | labelMappingFull (a b : R)
  /-- `IMSG_NEIGHBOR_DOWN` -/
  | neighborDown (a b : R)
  /-- The second router takes a message of the first. -/
  | deliver (a b : R)

/-! ### The label distribution protocol engine -/

inductive Verdict
  | pass
  | ignore
  /-- `session_shutdown` -/
  | shutdown
deriving DecidableEq

/-- The explicit null label of the other family. -/
def badLabel : Family → Label
  | .ipv4 => 2
  | .ipv6 => 0

def mplsLabelMax : Label := 1048575

/-- The labels that `tlv_decode_label` takes: of the reserved ones only the null labels. -/
def tlvDecodeLabel (label : Label) : Bool :=
  label ≤ mplsLabelMax && (mplsLabelReservedMax < label || label = 0 || label = 2 || label = 3)

/-- `recv_labelmessage` for a prefix -/
def recvLabelmessage (enabled : Family → Bool) (family : Family) (label : Option Label) : Verdict :=
  if label = some (badLabel family) then .shutdown
  else if enabled family then .pass
  else .ignore

variable {R A : Type*} [DecidableEq R] [DecidableEq A]

namespace Config
variable (cfg : Config R A)

/-- Whether a message goes on to the label decision engine. -/
def recv (enabled : Family → Bool) : Msg A → Verdict
  | .address addr => if enabled (cfg.addrFamily addr) then .pass else .ignore
  | .addressWithdraw addr => if enabled (cfg.addrFamily addr) then .pass else .ignore
  | .mapping fec label =>
    if tlvDecodeLabel label then recvLabelmessage enabled fec.family (some label) else .shutdown
  | .withdraw fec label => recvLabelmessage enabled fec.family label
  | .release fec label => recvLabelmessage enabled fec.family label
  | .withdrawWcard _ => .pass
  | .releaseWcard _ => .pass

/-- `send_address` for each of the families -/
def sendAddress (a b : R) (addrList : List (IfAddr A)) : List (Msg A) :=
  [Family.ipv4, .ipv6].flatMap fun family =>
    if cfg.enabled a b family then
      (addrList.filter fun ka => cfg.addrFamily ka.addr = family).map fun ka => .address ka.addr
    else []

def init : Net R A where
  lde a := ⟨[], fun _ => LdeNbr.new fun _ => false, [], fun _ => ⟨none, []⟩, mplsLabelReservedMax,
    cfg.explicitNull a⟩
  addrList _ := []
  chan _ _ := []
  side _ _ := .gone

end Config

namespace Net
variable (σ : Net R A)

/-- The router `a` goes on with `l` and has sent `out`. -/
def act (a : R) (p : Lde R A × Out R A) : Net R A where
  lde := Function.update σ.lde a p.1
  addrList := σ.addrList
  chan x y := if x = a then σ.chan a y ++ p.2 y else σ.chan x y
  side := σ.side

/-- Messages for one neighbour. -/
def only (b : R) (out : List (Msg A)) : Out R A := fun y => if y = b then out else []

def setSide (a b : R) (s : Side) : Net R A :=
  { σ with side := fun x y => if x = a ∧ y = b then s else σ.side x y }

def setChan (a b : R) (msgs : List (Msg A)) : Net R A :=
  { σ with chan := fun x y => if x = a ∧ y = b then msgs else σ.chan x y }

/-- The router `a` ends its session with `b`. -/
def close (a b : R) : Net R A := (σ.act a ((σ.lde a).nbrDel b, fun _ => [])).setSide a b .gone

/-- What is sent of an address to the neighbours that are in `NBR_STA_OPER`. -/
def sendIfAddr (cfg : Config R A) (a : R) (addr : A) (msg : Msg A) : Out R A := fun b =>
  if (σ.side a b).Up ∧ cfg.enabled a b (cfg.addrFamily addr) then [msg] else []

def ifAddrAdd (cfg : Config R A) (a : R) (ka : IfAddr A) : Net R A :=
  if ka ∈ σ.addrList a then σ
  else { σ.act a (σ.lde a, σ.sendIfAddr cfg a ka.addr (.address ka.addr)) with
    addrList := Function.update σ.addrList a (ka :: σ.addrList a) }

def ifAddrDel (cfg : Config R A) (a : R) (ka : IfAddr A) : Net R A :=
  if ka ∈ σ.addrList a then
    { σ.act a (σ.lde a, σ.sendIfAddr cfg a ka.addr (.addressWithdraw ka.addr)) with
      addrList := Function.update σ.addrList a ((σ.addrList a).erase ka) }
  else σ

def step (cfg : Config R A) : Event R A → Option (Net R A)
  | .kernelInsert a fec nexthop priority connected =>
    some (σ.act a ((σ.lde a).kernelInsert fec nexthop priority connected))
  | .kernelRemove a fec nexthop priority => some (σ.act a ((σ.lde a).kernelRemove fec nexthop priority))
  | .changeEgressLabel a family => some (σ.act a ((σ.lde a).changeEgressLabel family))
  | .ifAddrAdd a ka => some (σ.ifAddrAdd cfg a ka)
  | .ifAddrDel a ka => some (σ.ifAddrDel cfg a ka)
  | .connect a b =>
    if a ≠ b ∧ σ.side a b = .gone ∧ σ.side b a = .gone then
      some ((((σ.setChan a b []).setChan b a []).setSide a b .ready).setSide b a .ready)
    else none
  | .sessionEst a b =>
    if σ.side a b = .ready then
      some ((σ.act a ((σ.lde a).nbrNew b (cfg.enabled a b),
        only b (cfg.sendAddress a b (σ.addrList a)))).setSide a b .up)
    else none
  | .labelMappingFull a b =>
    if σ.side a b = .up then
      let p := (σ.lde a).fecSnap b
      some ((σ.act a (p.1, only b p.2)).setSide a b .full)
    else none
  | .neighborDown a b =>
    if σ.side a b = .ready then some (σ.setSide a b .gone)
    else if (σ.side a b).Up then some (σ.close a b)
    else none
  | .deliver a b =>
    match σ.chan a b with
    | [] => none
    | m :: ms =>
      if (σ.side b a).Up then
        match cfg.recv (cfg.enabled b a) m with
        | .pass =>
          let p := (σ.lde b).dispatch a m
          some ((σ.setChan a b ms).act b (p.1, only a p.2))
        | .ignore => some (σ.setChan a b ms)
        | .shutdown => some ((σ.setChan a b ms).close b a)
      else none

/-! ### Fields -/

section fields
variable {σ} {a b x y : R} {p : Lde R A × Out R A}

omit [DecidableEq A]

@[simp] theorem act_lde_self : (σ.act a p).lde a = p.1 := Function.update_self _ _ _

theorem act_lde_of_ne (h : x ≠ a) : (σ.act a p).lde x = σ.lde x := Function.update_of_ne h _ _

@[simp] theorem act_chan_self : (σ.act a p).chan a y = σ.chan a y ++ p.2 y := if_pos rfl

theorem act_chan_of_ne (h : x ≠ a) : (σ.act a p).chan x y = σ.chan x y := if_neg h

@[simp] theorem act_side : (σ.act a p).side = σ.side := rfl

@[simp] theorem only_self {out : List (Msg A)} : only b out b = out := if_pos rfl

theorem only_of_ne {out : List (Msg A)} (h : y ≠ b) : only b out y = [] := if_neg h

variable {s : Side} {msgs : List (Msg A)}

@[simp] theorem setSide_side_self : (σ.setSide a b s).side a b = s := if_pos ⟨rfl, rfl⟩

theorem setSide_side_of_ne (h : ¬(x = a ∧ y = b)) : (σ.setSide a b s).side x y = σ.side x y := if_neg h

@[simp] theorem setSide_lde : (σ.setSide a b s).lde = σ.lde := rfl

@[simp] theorem setSide_chan : (σ.setSide a b s).chan = σ.chan := rfl

@[simp] theorem setChan_chan_self : (σ.setChan a b msgs).chan a b = msgs := if_pos ⟨rfl, rfl⟩

theorem setChan_chan_of_ne (h : ¬(x = a ∧ y = b)) : (σ.setChan a b msgs).chan x y = σ.chan x y := if_neg h

end fields

end Net

/-- The states that the routers come to by events that satisfy `P` where they happen. -/
inductive Reachable (cfg : Config R A) (P : Net R A → Event R A → Prop) : Net R A → Prop
  | init : Reachable cfg P cfg.init
  | step {σ σ' : Net R A} {e : Event R A} (h : Reachable cfg P σ) (he : P σ e)
      (hstep : σ.step cfg e = some σ') : Reachable cfg P σ'

theorem Reachable.mono {cfg : Config R A} {P Q : Net R A → Event R A → Prop} {σ : Net R A}
    (h : Reachable cfg P σ) (hpq : ∀ σ e, P σ e → Q σ e) : Reachable cfg Q σ := by
  induction h with
  | init => exact .init
  | step _ he hstep ih => exact ih.step (hpq _ _ he) hstep

end Dir842.Ldp
