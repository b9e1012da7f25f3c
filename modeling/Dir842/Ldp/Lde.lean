import Mathlib.Logic.Function.Basic
import Mathlib.Data.List.Sort

/-!
# The label decision engine (`lde.c`, `lde_lib.c`)

One label switching router: what it knows of each FEC, what it has told its neighbours and what they
have told it. The functions give the new state and the messages to send, for every neighbour in the
order in which they are sent.

Pseudowires are left out, and label requests, which the program never sends. So are the messages to
the parent process, which repeat the next hops with their labels to the kernel.
-/

namespace Dir842.Ldp

/-- `MPLS_LABEL_RESERVED_MAX` and what is below have a fixed meaning. -/
abbrev Label := ℕ

def mplsLabelReservedMax : Label := 15

inductive Family
  | ipv4
  | ipv6
deriving DecidableEq

/-- `struct fec` of a prefix, which is the number that its octets make. -/
structure Fec where
  family : Family
  addrPrefix : ℕ
  prefixlen : ℕ
deriving DecidableEq

/-- The order of `fec_compare`. -/
def fecLe (a b : Fec) : Bool :=
  if a.family ≠ b.family then a.family = .ipv4
  else if a.addrPrefix ≠ b.addrPrefix then a.addrPrefix ≤ b.addrPrefix
  else a.prefixlen ≤ b.prefixlen

inductive Msg (A : Type*)
  | address (addr : A)
  | addressWithdraw (addr : A)
  | mapping (fec : Fec) (label : Label)
  /-- A label of `none` stands for all of them. -/
  | withdraw (fec : Fec) (label : Option Label)
  | withdrawWcard (label : Option Label)
  | release (fec : Fec) (label : Option Label)
  | releaseWcard (label : Option Label)

structure LdeNbr (A : Type*) where
  /-- `v4_enabled` and `v6_enabled` -/
  enabled : Family → Bool
  addrList : List A
  recvMap : Fec → Option Label
  sentMap : Fec → Option Label
  sentWdraw : Fec → Option (Option Label)

structure FecNh (A : Type*) where
  nexthop : A
  remoteLabel : Option Label
  priority : ℕ

/-- A node that has no label and no next hops is as good as none. -/
structure FecNode (A : Type*) where
  localLabel : Option Label
  nexthops : List (FecNh A)

structure Lde (R A : Type*) where
  nbrs : List R
  nbr : R → LdeNbr A
  /-- The FECs in the tree `ft`. -/
  tree : List Fec
  ft : Fec → FecNode A
  /-- The last label that `lde_assign_label` has given. -/
  label : Label
  /-- `F_LDPD_AF_EXPNULL` -/
  explicitNull : Family → Bool

/-- The messages for each neighbour. -/
abbrev Out (R A : Type*) := R → List (Msg A)

variable {R A : Type*} [DecidableEq R] [DecidableEq A]

namespace LdeNbr
variable (ln : LdeNbr A)

def new (enabled : Family → Bool) : LdeNbr A :=
  ⟨enabled, [], fun _ => none, fun _ => none, fun _ => none⟩

def sendLabelmapping (fec : Fec) (label : Label) : LdeNbr A × List (Msg A) :=
  if ln.enabled fec.family then
    ({ ln with sentMap := Function.update ln.sentMap fec (some label) }, [.mapping fec label])
  else (ln, [])

def sendLabelwithdraw (fec : Fec) (label : Option Label) : LdeNbr A × List (Msg A) :=
  if ln.enabled fec.family then
    ({ ln with sentWdraw := Function.update ln.sentWdraw fec (some label) }, [.withdraw fec label])
  else (ln, [])

def sendLabelwithdrawWcard (tree : List Fec) (label : Option Label) : LdeNbr A × List (Msg A) :=
  ({ ln with sentWdraw := fun fec => if fec ∈ tree then some label else ln.sentWdraw fec },
    [.withdrawWcard label])

def sendLabelrelease (fec : Fec) (label : Option Label) : List (Msg A) :=
  if ln.enabled fec.family then [.release fec label] else []

/-- A label that is withdrawn or released is meant. -/
def meant (label : Option Label) (known : Label) : Bool := label = none || label = some known

def released (fec : Fec) (label : Option Label) : LdeNbr A :=
  let wdraw := (ln.sentWdraw fec).any fun l => label = none || l ≠ none && label = l
  let map := (ln.sentMap fec).any (meant label)
  { ln with
    sentWdraw := if wdraw then Function.update ln.sentWdraw fec none else ln.sentWdraw
    sentMap := if map then Function.update ln.sentMap fec none else ln.sentMap }

/-- LWd.3 and LWd.4 -/
def withdrawn (fec : Fec) (label : Option Label) : LdeNbr A :=
  if (ln.recvMap fec).any (meant label) then
    { ln with recvMap := Function.update ln.recvMap fec none }
  else ln

end LdeNbr

namespace Lde
variable (l : Lde R A)

def setNbr (b : R) (ln : LdeNbr A) : Lde R A := { l with nbr := Function.update l.nbr b ln }

/-- `fec_add`, where the FEC is not in the tree. -/
def fecAdd (fec : Fec) : Lde R A :=
  if fec ∈ l.tree then l else { l with tree := l.tree.orderedInsert (fun a b => fecLe a b) fec }

def setNode (fec : Fec) (fn : FecNode A) : Lde R A := { l with ft := Function.update l.ft fec fn }

/-- The next hops of the FEC that are addresses of the neighbour get the label. -/
def setRemote (b : R) (fec : Fec) (label : Option Label) : Lde R A :=
  l.setNode fec { l.ft fec with
    nexthops := (l.ft fec).nexthops.map fun fnh =>
      if fnh.nexthop ∈ (l.nbr b).addrList then { fnh with remoteLabel := label } else fnh }

/-- What is sent to every neighbour. -/
def sendAll (send : LdeNbr A → LdeNbr A × List (Msg A)) : Lde R A × Out R A :=
  ({ l with nbr := fun b => if b ∈ l.nbrs then (send (l.nbr b)).1 else l.nbr b },
    fun b => if b ∈ l.nbrs then (send (l.nbr b)).2 else [])

def egressLabel (family : Family) : Label :=
  if l.explicitNull family then
    match family with
    | .ipv4 => 0
    | .ipv6 => 2
  else 3

/-- The label for a FEC that has had none. -/
def assignLabel (fec : Fec) (connected : Bool) : Lde R A × Label :=
  let (l', label) :=
    if connected then (l, l.egressLabel fec.family)
    else
      let label := (l.label + 1) % 4294967296
      ({ l with label }, label)
  (l'.setNode fec { l.ft fec with localLabel := some label }, label)

def nbrFindByAddr (addr : A) : Option R := l.nbrs.find? fun b => addr ∈ (l.nbr b).addrList

/-! ### Fields -/

section fields
variable (b : R) (ln : LdeNbr A) (fec : Fec) (fn : FecNode A) (label : Option Label)

omit [DecidableEq A] in
@[simp] theorem setNbr_nbr_self : (l.setNbr b ln).nbr b = ln := by simp [setNbr]

omit [DecidableEq A] in
theorem setNbr_nbr_of_ne {b b' : R} (h : b' ≠ b) (ln : LdeNbr A) : (l.setNbr b ln).nbr b' = l.nbr b' := by
  simp [setNbr, h]

omit [DecidableEq A] in
@[simp] theorem setNbr_ft : (l.setNbr b ln).ft = l.ft := rfl

omit [DecidableEq R] [DecidableEq A] in
@[simp] theorem setNode_ft_self : (l.setNode fec fn).ft fec = fn := by simp [setNode]

omit [DecidableEq R] [DecidableEq A] in
theorem setNode_ft_of_ne {fec fec' : Fec} (h : fec' ≠ fec) (fn : FecNode A) :
    (l.setNode fec fn).ft fec' = l.ft fec' := by simp [setNode, h]

end fields

/-! ### Messages that are received -/

/-- `lde_check_mapping`. When the label changes LMp.10a removes it from the next hops before LMp.15
gives them the new one. -/
def checkMapping (b : R) (fec : Fec) (label : Label) : Lde R A × List (Msg A) :=
  let l := l.fecAdd fec
  let ln := l.nbr b
  let out := if (ln.recvMap fec).any (· ≠ label) then ln.sendLabelrelease fec (ln.recvMap fec) else []
  ((l.setRemote b fec (some label)).setNbr b
    { ln with recvMap := Function.update ln.recvMap fec (some label) }, out)

/-- LRl.3 to LRl.6 for one FEC -/
def releaseRound (b : R) (label : Option Label) (l : Lde R A) (fec : Fec) : Lde R A :=
  l.setNbr b ((l.nbr b).released fec label)

def checkRelease (b : R) (fec : Fec) (label : Option Label) : Lde R A :=
  if fec ∈ l.tree then releaseRound b label l fec else l

def checkReleaseWcard (b : R) (label : Option Label) : Lde R A :=
  l.tree.foldl (releaseRound b label) l

/-- The FIB loses the label whether or not it is the one that is withdrawn. -/
def checkWithdraw (b : R) (fec : Fec) (label : Option Label) : Lde R A × List (Msg A) :=
  let l := (l.fecAdd fec).setRemote b fec none
  (l.setNbr b ((l.nbr b).withdrawn fec label), (l.nbr b).sendLabelrelease fec label)

/-- The FEC in the loop of `lde_check_withdraw_wcard` -/
def withdrawRound (b : R) (label : Option Label) (l : Lde R A) (fec : Fec) : Lde R A :=
  (l.setRemote b fec none).setNbr b ((l.nbr b).withdrawn fec label)

def checkWithdrawWcard (b : R) (label : Option Label) : Lde R A × List (Msg A) :=
  (l.tree.foldl (withdrawRound b label) l, [.releaseWcard label])

/-- `lde_address_add` -/
def addressAdd (b : R) (addr : A) : Lde R A :=
  if addr ∈ (l.nbr b).addrList then l
  else l.setNbr b { l.nbr b with addrList := (l.nbr b).addrList ++ [addr] }

/-- `lde_address_del`, which leaves the next hops alone. -/
def addressDel (b : R) (addr : A) : Lde R A :=
  l.setNbr b { l.nbr b with addrList := (l.nbr b).addrList.erase addr }

def dispatch (b : R) : Msg A → Lde R A × List (Msg A)
  | .address addr => (l.addressAdd b addr, [])
  | .addressWithdraw addr => (l.addressDel b addr, [])
  | .mapping fec label => l.checkMapping b fec label
  | .withdraw fec label => l.checkWithdraw b fec label
  | .withdrawWcard label => l.checkWithdrawWcard b label
  | .release fec label => (l.checkRelease b fec label, [])
  | .releaseWcard label => (l.checkReleaseWcard b label, [])

/-! ### Routes -/

/-- FEC.2 and FEC.5 -/
def checkKnown (fec : Fec) (nexthop : A) (p : Lde R A × Out R A) : Lde R A × Out R A :=
  match p.1.nbrFindByAddr nexthop with
  | none => p
  | some b =>
    match (p.1.nbr b).recvMap fec with
    | none => p
    | some label =>
      let (l, out) := p.1.checkMapping b fec label
      (l, Function.update p.2 b (p.2 b ++ out))

def kernelInsert (fec : Fec) (nexthop : A) (priority : ℕ) (connected : Bool) : Lde R A × Out R A :=
  let l := l.fecAdd fec
  if (l.ft fec).nexthops.any fun fnh => fnh.nexthop = nexthop ∧ fnh.priority = priority then
    (l, fun _ => [])
  else
    let (l, out) : Lde R A × Out R A :=
      if (l.ft fec).localLabel = none then
        let (l, label) := l.assignLabel fec connected
        l.sendAll fun ln => ln.sendLabelmapping fec label
      else (l, fun _ => [])
    let fn := { l.ft fec with nexthops := ⟨nexthop, none, priority⟩ :: (l.ft fec).nexthops }
    checkKnown fec nexthop (l.setNode fec fn, out)

def kernelRemove (fec : Fec) (nexthop : A) (priority : ℕ) : Lde R A × Out R A :=
  if (l.ft fec).nexthops.any fun fnh => fnh.nexthop = nexthop ∧ fnh.priority = priority then
    let l := l.setNode fec { l.ft fec with
      nexthops := (l.ft fec).nexthops.eraseP fun fnh => fnh.nexthop = nexthop ∧ fnh.priority = priority }
    if (l.ft fec).nexthops = [] then
      let label := (l.ft fec).localLabel
      let (l, out) := l.sendAll fun ln => ln.sendLabelwithdraw fec label
      (l.setNode fec { l.ft fec with localLabel := none }, out)
    else (l, fun _ => [])
  else (l, fun _ => [])

/-! ### Neighbours -/

/-- `lde_nbr_new`. A neighbour that is new has the highest `peerid`. -/
def nbrNew (b : R) (enabled : Family → Bool) : Lde R A :=
  { l.setNbr b (LdeNbr.new enabled) with nbrs := l.nbrs ++ [b] }

/-- `lde_nbr_del` -/
def nbrDel (b : R) : Lde R A :=
  { l.tree.foldl (fun l fec => l.setRemote b fec none) l with nbrs := l.nbrs.erase b }

/-- The FEC in the loop of `fec_snap` -/
def snapRound (b : R) (p : Lde R A × List (Msg A)) (fec : Fec) : Lde R A × List (Msg A) :=
  match (p.1.ft fec).localLabel with
  | none => p
  | some label =>
    (p.1.setNbr b ((p.1.nbr b).sendLabelmapping fec label).1,
      p.2 ++ ((p.1.nbr b).sendLabelmapping fec label).2)

def fecSnap (b : R) : Lde R A × List (Msg A) := l.tree.foldl (snapRound b) (l, [])

/-! ### Configuration -/

/-- The FEC in the loop of `lde_change_egress_label` -/
def egressRound (b : R) (family : Family) (p : Lde R A × List (Msg A)) (fec : Fec) :
    Lde R A × List (Msg A) :=
  match (p.1.ft fec).localLabel with
  | none => p
  | some label =>
    if label ≤ mplsLabelReservedMax ∧ fec.family = family then
      let new := p.1.egressLabel family
      let l := p.1.setNode fec { p.1.ft fec with localLabel := some new }
      (l.setNbr b ((l.nbr b).sendLabelmapping fec new).1,
        p.2 ++ ((l.nbr b).sendLabelmapping fec new).2)
    else p

/-- The labels that are withdrawn: the flag has changed, and says now that the label was implicit. -/
def egressLabels (b : R) (family : Family) : List Label :=
  if l.explicitNull family then [3]
  else (if (l.nbr b).enabled .ipv4 then [0] else []) ++ if (l.nbr b).enabled .ipv6 then [2] else []

def wcardRound (b : R) (l : Lde R A) (label : Label) : Lde R A :=
  l.setNbr b ((l.nbr b).sendLabelwithdrawWcard l.tree (some label)).1

/-- The neighbour in the loop of `lde_change_egress_label` -/
def changeEgressFor (b : R) (family : Family) : Lde R A × List (Msg A) :=
  let labels := l.egressLabels b family
  let l' := labels.foldl (wcardRound b) l
  l'.tree.foldl (egressRound b family) (l', labels.map fun label => .withdrawWcard (some label))

def egressNbr (family : Family) (p : Lde R A × Out R A) (b : R) : Lde R A × Out R A :=
  ((p.1.changeEgressFor b family).1,
    Function.update p.2 b (p.2 b ++ (p.1.changeEgressFor b family).2))

/-- `merge_af`, when `F_LDPD_AF_EXPNULL` changes. -/
def changeEgressLabel (family : Family) : Lde R A × Out R A :=
  let l' := { l with explicitNull := Function.update l.explicitNull family !l.explicitNull family }
  l'.nbrs.foldl (egressNbr family) (l', fun _ => [])

end Lde

end Dir842.Ldp
