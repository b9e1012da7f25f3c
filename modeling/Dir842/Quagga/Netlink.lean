import Dir842.Quagga.Zapi
import Mathlib.Algebra.Order.Ring.Int
import Mathlib.Logic.Function.Basic

/-!
# Routes of zebra in the kernel

`netlink_route_multipath` and `kernel_route_rib` of zebra's `rt_netlink.c` with the patches for
metrics and routing tables, over a kernel that keys the routes of a prefix by table and priority
(zebra sets no tos) and that takes every request with `NLM_F_CREATE | NLM_F_REPLACE`.

Everything here is about one prefix. `Rib.id` stands for the address of the entry: the kernel does
not know it, and nothing but the statements about who owns a route reads it.
-/

namespace Dir842.Zebra
open Quagga (MULTIPATH_NUM)

/-! ### Entries -/

inductive RouteType
  | system | kernel | connect | static | rip | ripng | ospf | ospf6 | isis | bgp | pim | hsls
  | olsr | babel | ldp
deriving DecidableEq

/-- Where a nexthop leads: an interface where there is no gateway. -/
structure Hop where
  gate : Option Nat
  ifindex : Nat
  src : Option Nat := none
  labels : List Nat := []
deriving DecidableEq

/-- `struct nexthop` with its `NEXTHOP_FLAG_`s. -/
structure Nexthop extends Hop where
  active : Bool := false
  fib : Bool := false
  recursive : Bool := false
deriving DecidableEq

/-- `struct rib`; `nexthops` in the order of `ALL_NEXTHOPS_RO`, which goes into recursive ones. -/
structure Rib where
  id : Nat
  type : RouteType
  distance : UInt8
  metric : UInt32
  table : Int32
  mtu : Nat := 0
  nexthopMtu : Nat := 0
  /-- `ZEBRA_FLAG_BLACKHOLE`, `ZEBRA_FLAG_REJECT` and `ZEBRA_FLAG_FIB_OVERRIDE`. -/
  blackhole : Bool := false
  reject : Bool := false
  fibOverride : Bool := false
  /-- `RIB_ENTRY_REMOVED`, `RIB_ENTRY_CHANGED` and `RIB_ENTRY_SELECTED_FIB`. -/
  removed : Bool := false
  changed : Bool := false
  selectedFib : Bool := false
  nexthops : List Nexthop
deriving DecidableEq

/-! ### Requests -/

/-- `RTM_NEWROUTE` and `RTM_DELROUTE`. -/
inductive Cmd
  | newRoute
  | delRoute
deriving DecidableEq

inductive RtmType
  | unicast
  | blackhole
  | unreachable
deriving DecidableEq

/-- What a request says of the route besides its key. -/
structure Route where
  rib : Nat
  rtmType : RtmType
  /-- `RT_SCOPE_UNIVERSE`, else `RT_SCOPE_LINK`. -/
  scopeUniverse : Bool
  mtu : Option Nat
  hops : List Hop
deriving DecidableEq

structure Request where
  cmd : Cmd
  rtmTable : Nat
  rtaTable : Option Nat
  rtaPriority : UInt32
  route : Route

def Rib.discard (rib : Rib) : Bool := rib.blackhole || rib.reject

/-- The nexthops that a request is about. -/
def Nexthop.usable (cmd : Cmd) (n : Nexthop) : Bool :=
  !n.recursive && match cmd with
    | .newRoute => n.active
    | .delRoute => n.fib

/-- How many nexthops are sent: in the singlepath case the first usable one. -/
def Rib.hopCount (cmd : Cmd) (rib : Rib) : Nat :=
  if rib.nexthops.countP (·.usable cmd) = 1 ∨ MULTIPATH_NUM = 1 then 1 else MULTIPATH_NUM

/-- `SET_FLAG (nexthop->flags, NEXTHOP_FLAG_FIB)` for the first `k` nexthops with `p`. -/
def setFib (p : Nexthop → Bool) : Nat → List Nexthop → List Nexthop
  | _, [] => []
  | 0, ns => ns
  | k + 1, n :: ns => if p n then { n with fib := true } :: setFib p k ns else n :: setFib p (k + 1) ns

def Rib.rtmType (rib : Rib) : RtmType :=
  if rib.blackhole then .blackhole else if rib.reject then .unreachable else .unicast

def Rib.sentMtu (rib : Rib) : Option Nat :=
  if rib.mtu = 0 ∧ rib.nexthopMtu = 0 then none
  else if rib.mtu = 0 ∨ (rib.nexthopMtu ≠ 0 ∧ rib.nexthopMtu < rib.mtu) then some rib.nexthopMtu
  else some rib.mtu

/-- `rtm_table` is a byte; `RTA_TABLE` carries a table that does not fit. -/
def tableAttrs (table : Int32) : Nat × Option Nat :=
  if table.toInt < 256 then ((table.toInt % 256).toNat, none)
  else (0, some (table.toInt % 2 ^ 32).toNat)

def Rib.route (cmd : Cmd) (rib : Rib) : Route :=
  if rib.discard then
    { rib := rib.id, rtmType := rib.rtmType, scopeUniverse := false, mtu := rib.sentMtu, hops := [] }
  else
    { rib := rib.id
      rtmType := rib.rtmType
      scopeUniverse := (rib.nexthops.filter (·.usable cmd)).any (·.gate.isSome)
      mtu := rib.sentMtu
      hops := ((rib.nexthops.filter (·.usable cmd)).take (rib.hopCount cmd)).map (·.toHop) }

/-- `netlink_route_multipath`: the request, unless there is no useful nexthop, and the entry with
its flags. -/
def netlinkRouteMultipath (cmd : Cmd) (rib : Rib) : Option Request × Rib :=
  let request : Request :=
    { cmd, rtmTable := (tableAttrs rib.table).1, rtaTable := (tableAttrs rib.table).2
      rtaPriority := rib.metric, route := rib.route cmd }
  if rib.discard then
    (some request,
      match cmd with
      | .newRoute =>
        { rib with nexthops := setFib (!·.recursive) rib.nexthops.length rib.nexthops }
      | .delRoute => rib)
  else
    (if (rib.route cmd).hops = [] then none else some request,
      match cmd with
      | .newRoute =>
        { rib with nexthops := setFib (·.usable cmd) (rib.hopCount cmd) rib.nexthops }
      | .delRoute => rib)

/-! ### The kernel -/

structure Key where
  table : Nat
  priority : UInt32
deriving DecidableEq

/-- The routes of the prefix that zebra has in the kernel. -/
abbrev Fib := Key → Option Route

def RT_TABLE_MAIN : Nat := 254

/-- `RT_TABLE_UNSPEC` is the main table. -/
def tableId (table : Nat) : Nat := if table = 0 then RT_TABLE_MAIN else table

def Request.key (r : Request) : Key := ⟨tableId (r.rtaTable.getD r.rtmTable), r.rtaPriority⟩

inductive Errno
  | EEXIST | ENODEV | ESRCH
  | other (n : Nat)
deriving DecidableEq

/-- How the kernel refuses the two requests of a call though its routes admit them (no privilege,
no memory, no way to the gateway). With `NLM_F_REPLACE` a route is never there already, and that
there is nothing to delete is said of absent routes only. -/
structure Refusals where
  new : Option Errno
  del : Option Errno
  new_ne : new ≠ some .EEXIST
  del_ne : del ≠ some .ENODEV ∧ del ≠ some .ESRCH

/-- A kernel that takes every request. -/
def noRefusals : Refusals := ⟨none, none, nofun, nofun, nofun⟩

def Refusals.of (refused : Refusals) : Cmd → Option Errno
  | .newRoute => refused.new
  | .delRoute => refused.del

def Fib.answer (fib : Fib) (refused : Refusals) (r : Request) : Fib × Option Errno :=
  match refused.of r.cmd with
  | some e => (fib, some e)
  | none =>
    match r.cmd with
    | .newRoute => (Function.update fib r.key (some r.route), none)
    | .delRoute =>
      if (fib r.key).isSome then (Function.update fib r.key none, none) else (fib, some .ESRCH)

/-- `netlink_talk`, with the errors that `netlink_parse_info` takes for races in link handling. -/
def netlinkTalk (cmd : Cmd) : Option Errno → Int
  | none => 0
  | some e =>
    if (cmd = .delRoute ∧ (e = .ENODEV ∨ e = .ESRCH)) ∨ (cmd = .newRoute ∧ e = .EEXIST) then 0
    else -1

/-- `netlink_route_multipath` with the kernel's part: what it returns and the routes after it. -/
def talk (refused : Refusals) (fib : Fib) (cmd : Cmd) (rib : Rib) : Int × Fib :=
  match (netlinkRouteMultipath cmd rib).1 with
  | none => (0, fib)
  | some r => (netlinkTalk cmd (fib.answer refused r).2, (fib.answer refused r).1)

/-- What `kernel_route_rib` returns, and the kernel's routes after each of its steps. -/
structure Outcome where
  ret : Int
  fibs : List Fib

/-- `kernel_route_rib`; there is no result where both pointers are `NULL`. -/
def kernelRouteRib (refused : Refusals) (fib : Fib) : Option Rib → Option Rib → Option Outcome
  | none, some new =>
    let t := talk refused fib .newRoute new
    some ⟨t.1, [t.2]⟩
  | some old, none =>
    let t := talk refused fib .delRoute old
    some ⟨t.1, [t.2]⟩
  | some old, some new =>
    let t := talk refused fib .newRoute new
    if old.metric = new.metric then some ⟨t.1, [t.2]⟩
    else
      let t' := talk refused t.2 .delRoute old
      some ⟨if t'.1 < 0 then -1 else t.1, [t.2, t'.2]⟩
  | none, none => none

def Outcome.final (o : Outcome) (fib : Fib) : Fib := o.fibs.getLastD fib

/-! ### What the steps come to -/

/-- Whether there is a request at all. -/
def Rib.sends (cmd : Cmd) (rib : Rib) : Bool :=
  rib.discard || rib.nexthops.any (·.usable cmd)

/-- The key that the kernel reads off the requests for the entry. -/
def Rib.requestKey (rib : Rib) : Key :=
  ⟨tableId ((tableAttrs rib.table).2.getD (tableAttrs rib.table).1), rib.metric⟩

section
variable {cmd : Cmd} {rib : Rib} {refused : Refusals} {fib : Fib}

theorem hopCount_pos : 0 < rib.hopCount cmd := by
  unfold Rib.hopCount MULTIPATH_NUM
  split <;> omega

theorem hops_eq_nil_iff (hd : rib.discard = false) :
    (rib.route cmd).hops = [] ↔ rib.nexthops.any (·.usable cmd) = false := by
  have hpos : rib.hopCount cmd ≠ 0 := Nat.ne_of_gt hopCount_pos
  unfold Rib.route
  rw [hd, if_neg (by simp)]
  simp [List.take_eq_nil_iff, hpos]

theorem netlinkRouteMultipath_fst : (netlinkRouteMultipath cmd rib).1 =
    if rib.sends cmd then
      some { cmd, rtmTable := (tableAttrs rib.table).1, rtaTable := (tableAttrs rib.table).2
             rtaPriority := rib.metric, route := rib.route cmd }
    else none := by
  unfold netlinkRouteMultipath Rib.sends
  cases hd : rib.discard with
  | true => rfl
  | false =>
    have hnil := @hops_eq_nil_iff cmd rib hd
    cases ha : rib.nexthops.any (·.usable cmd) with
    | true =>
      have hne : (rib.route cmd).hops ≠ [] := fun h => by
        rw [hnil, ha] at h; cases h
      simp [hne]
    | false => simp [hnil.mpr ha]

theorem talk_of_not_sends (h : rib.sends cmd = false) : talk refused fib cmd rib = (0, fib) := by
  simp only [talk, netlinkRouteMultipath_fst, h, Bool.false_eq_true, if_false]

theorem talk_refused {e : Errno} (h : rib.sends cmd = true) (he : refused.of cmd = some e) :
    talk refused fib cmd rib = (-1, fib) := by
  have htol : netlinkTalk cmd (some e) = -1 := by
    cases cmd with
    | newRoute =>
      have hne : e ≠ .EEXIST := by rintro rfl; exact refused.new_ne he
      simp [netlinkTalk, hne]
    | delRoute =>
      have hne : e ≠ .ENODEV := by rintro rfl; exact refused.del_ne.1 he
      have hne' : e ≠ .ESRCH := by rintro rfl; exact refused.del_ne.2 he
      simp [netlinkTalk, hne, hne']
  simp only [talk, netlinkRouteMultipath_fst, h, if_true, Fib.answer, he, htol]

theorem talk_newRoute (h : rib.sends .newRoute = true) (hr : refused.new = none) :
    talk refused fib .newRoute rib =
      (0, Function.update fib rib.requestKey (some (rib.route .newRoute))) := by
  have ho : refused.of .newRoute = none := hr
  simp only [talk, netlinkRouteMultipath_fst, h, if_true, Fib.answer, ho]
  rfl

/-- To delete a route that is not there is no failure. -/
theorem talk_delRoute (h : rib.sends .delRoute = true) (hr : refused.del = none) :
    talk refused fib .delRoute rib = (0, Function.update fib rib.requestKey none) := by
  have ho : refused.of .delRoute = none := hr
  simp only [talk, netlinkRouteMultipath_fst, h, if_true, Fib.answer, ho]
  split
  · rfl
  · rename_i hk
    have hnone : fib rib.requestKey = none := by
      rw [← Option.not_isSome_iff_eq_none]; exact hk
    refine Prod.ext rfl ?_
    exact (Function.update_eq_self_iff.mpr hnone.symm).symm

end

end Dir842.Zebra
