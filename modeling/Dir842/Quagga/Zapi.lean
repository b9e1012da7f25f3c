import Dir842.Quagga.Stream

/-!
# ZAPI route messages

`zapi_ipv4_route` / `zapi_ipv6_route` of the clients and `zread_ipv4_add` / `zread_ipv6_add` of
zebra, with the patches for MPLS and routing tables applied and `DLINK_SOFTWARE` and `HAVE_MPLS`
defined. The two address families share everything but the nexthops.
-/

namespace Dir842.Quagga
open Codec

inductive Attr
  | nexthop | ifindex | distance | metric | mtu | tag | label | table
deriving DecidableEq

/-- The `ZAPI_MESSAGE_` macros; that of `table` is defined twice, and the second one holds. -/
def Attr.flag : Attr → UInt8
  | .nexthop => 0x01
  | .ifindex => 0x02
  | .distance => 0x04
  | .metric => 0x08
  | .mtu => 0x10
  | .tag => 0x20
  | .label => 0x40
  | .table => 0x40

/-- `CHECK_FLAG` -/
def checkFlag (message : UInt8) (a : Attr) : Bool := message &&& a.flag ≠ 0

def ZEBRA_FLAG_BLACKHOLE : UInt8 := 0x04

def ZEBRA_NEXTHOP_IFINDEX : UInt8 := 1
def ZEBRA_NEXTHOP_IFNAME : UInt8 := 2
def ZEBRA_NEXTHOP_IPV4 : UInt8 := 3
def ZEBRA_NEXTHOP_IPV4_IFINDEX : UInt8 := 4
def ZEBRA_NEXTHOP_IPV6 : UInt8 := 6
def ZEBRA_NEXTHOP_BLACKHOLE : UInt8 := 9

def ZEBRA_HEADER_SIZE : UInt16 := 8
def ZEBRA_HEADER_MARKER : UInt8 := 255
def ZSERV_VERSION : UInt8 := 3

/-- The default of `configure`, which the package does not change. -/
def MULTIPATH_NUM : Nat := 1

/-- `struct prefix_ipv4` and `struct prefix_ipv6`, for addresses of `size` bytes. -/
structure Prefix (size : Nat) where
  prefixlen : UInt8
  addr : List UInt8
  addr_length : addr.length = size
  prefixlen_le : prefixlen.toNat ≤ 8 * size

/-- `PSIZE` -/
def psize (prefixlen : UInt8) : Nat := (prefixlen.toNat + 7) / 8

/-- `struct zapi_ipv4` and `struct zapi_ipv6`; `sent` is the set of flags of `message`. -/
structure Zapi (size : Nat) where
  type : UInt8
  flags : UInt8
  sent : Attr → Bool
  safi : UInt8
  nexthop : List (List UInt8)
  ifindex : List UInt32
  distance : UInt8
  tag : UInt32
  metric : UInt32
  mtu : UInt32
  table : UInt32
  label : UInt32
  vrfId : UInt16
  nexthop_length : ∀ a ∈ nexthop, a.length = size
  nexthopNum_lt : nexthop.length < 256
  ifindexNum_lt : ifindex.length < 256

namespace Zapi
variable {size : Nat} (api : Zapi size)

def nexthopNum : UInt8 := .ofNat api.nexthop.length

def ifindexNum : UInt8 := .ofNat api.ifindex.length

def message : UInt8 :=
  [.nexthop, .ifindex, .distance, .metric, .mtu, .tag, .label, .table].foldl
    (fun m a => if api.sent a then m ||| a.flag else m) 0

def blackhole : Bool := api.flags &&& ZEBRA_FLAG_BLACKHOLE ≠ 0

end Zapi

/-! ### The client -/

def zclientCreateHeader (command vrfId : UInt16) : Put := do
  streamPutw ZEBRA_HEADER_SIZE
  streamPutc ZEBRA_HEADER_MARKER
  streamPutc ZSERV_VERSION
  streamPutw vrfId
  streamPutw command

/-- An optional part of the message. -/
def putIf (c : Bool) (m : Put) : Put := if c then m else pure ()

/-- What the two functions write before they put the length at its place; `putNexthops` is the part
under `ZAPI_MESSAGE_NEXTHOP`. -/
def putRoute {size : Nat} (cmd : UInt8) (p : Prefix size) (api : Zapi size) (putNexthops : Put) :
    Put := do
  zclientCreateHeader cmd.toUInt16 api.vrfId
  streamPutc api.type
  streamPutc api.flags
  streamPutc api.message
  streamPutw api.safi.toUInt16
  streamPutc p.prefixlen
  streamWrite (p.addr.take (psize p.prefixlen))
  putIf (checkFlag api.message .label) (streamPutl api.label)
  putIf (checkFlag api.message .nexthop) putNexthops
  putIf (checkFlag api.message .distance) (streamPutc api.distance)
  putIf (checkFlag api.message .metric) (streamPutl api.metric)
  putIf (checkFlag api.message .mtu) (streamPutl api.mtu)
  putIf (checkFlag api.message .tag) (streamPutl api.tag)
  putIf (checkFlag api.message .table) (streamPutc api.table.toUInt8)
  putIf (checkFlag api.message .table) (streamPutl api.table)

def zapiRoute {size : Nat} (cmd : UInt8) (p : Prefix size) (api : Zapi size) (putNexthops : Put) :
    Put := do
  putRoute cmd p api putNexthops
  streamPutwAtStart (.ofNat (← get).length)

def putIfindexes {size : Nat} (api : Zapi size) : Put :=
  api.ifindex.forM fun ifindex => do
    streamPutc ZEBRA_NEXTHOP_IFINDEX
    streamPutl ifindex

def putNexthopsIpv4 (api : Zapi 4) : Put := do
  if api.blackhole then
    streamPutc 1
    streamPutc ZEBRA_NEXTHOP_BLACKHOLE
  else streamPutc (api.nexthopNum + api.ifindexNum)
  api.nexthop.forM fun nexthop => do
    streamPutc ZEBRA_NEXTHOP_IPV4
    streamPutInAddr nexthop
  putIfindexes api

def zapiIpv4Route (cmd : UInt8) (p : Prefix 4) (api : Zapi 4) : Put :=
  zapiRoute cmd p api (putNexthopsIpv4 api)

def putNexthopsIpv6 (api : Zapi 16) : Put := do
  streamPutc (api.nexthopNum + api.ifindexNum)
  api.nexthop.forM fun nexthop => do
    streamPutc ZEBRA_NEXTHOP_IPV6
    streamWrite nexthop
  putIfindexes api

def zapiIpv6Route (cmd : UInt8) (p : Prefix 16) (api : Zapi 16) : Put :=
  zapiRoute cmd p api (putNexthopsIpv6 api)

/-! ### The server -/

inductive Nexthop
  | ifindex (ifindex : UInt32)
  | ipv4 (addr : List UInt8) (labels : List UInt32)
  | ipv4Ifindex (addr : List UInt8) (ifindex : UInt32)
  | ipv6 (addr : List UInt8)
  | ipv6Ifindex (addr : List UInt8) (ifindex : UInt32)
  | blackhole
deriving DecidableEq

structure Rib where
  type : UInt8
  flags : UInt8
  vrfId : UInt16
  nexthops : List Nexthop
  distance : UInt8
  metric : UInt32
  mtu : UInt32
  tag : UInt32
  table : UInt32
deriving DecidableEq

/-- The variables of `zread_ipv4_add` / `zread_ipv6_add` when the message has been read. -/
structure Received where
  message : UInt8
  safi : UInt8
  prefixlen : UInt8
  addr : List UInt8
  label : Option UInt32
  /-- The gateways and the interfaces, in the order of the message. -/
  gateways : List (List UInt8)
  ifindexes : List UInt32
  rib : Rib
deriving DecidableEq

/-- What is read of the nexthops: the gateways, the interfaces and the nexthops for the rib. -/
abbrev Nexthops := List (List UInt8) × List UInt32 × List Nexthop

def getIf {α : Type} (c : Bool) (m : Get α) (default : α) : Get α := if c then m else pure default

/-- The attributes after the nexthops. -/
def getAttrs (rtmTableDefault : UInt32) (r : Received) : Get Received := do
  let distance ← getIf (checkFlag r.message .distance) streamGetc r.rib.distance
  let metric ← getIf (checkFlag r.message .metric) streamGetl r.rib.metric
  let mtu ← getIf (checkFlag r.message .mtu) streamGetl r.rib.mtu
  let tag ← getIf (checkFlag r.message .tag) streamGetl r.rib.tag
  let table ← getIf (checkFlag r.message .table) streamGetl rtmTableDefault
  return { r with
    rib := { r.rib with
      distance := distance, metric := metric, mtu := mtu, tag := tag, table := table } }

/-- What the two functions share; `getNexthops` is the part under `ZAPI_MESSAGE_NEXTHOP`, which
gets the label. The `rib` is zeroed when it is allocated. -/
def zreadAdd (size : Nat) (rtmTableDefault : UInt32) (vrfId : UInt16)
    (getNexthops : Option UInt32 → Get Nexthops) : Get Received := do
  let type ← streamGetc
  let flags ← streamGetc
  let message ← streamGetc
  let safi ← streamGetw
  let prefixlen ← streamGetc
  let addr ← streamGet (psize prefixlen)
  let label ← getIf (checkFlag message .label) (some <$> streamGetl) none
  let nexthops ← getIf (checkFlag message .nexthop) (getNexthops label) ([], [], [])
  getAttrs rtmTableDefault {
    message := message
    safi := safi.toUInt8
    prefixlen := prefixlen
    addr := addr ++ List.replicate (size - addr.length) 0
    label := label
    gateways := nexthops.1
    ifindexes := nexthops.2.1
    rib := ⟨type, flags, vrfId, nexthops.2.2, 0, 0, 0, 0, 0⟩ }

/-- One turn of the loop of `zread_ipv4_add`. -/
def getNexthopIpv4 (label : Option UInt32) : Get (Option Nexthop) := do
  match ← streamGetc with
  | 1 => return some (.ifindex (← streamGetl))
  | 2 =>
    let ifnameLen ← streamGetc
    streamForwardGetp ifnameLen.toNat
    return none
  | 3 => return some (.ipv4 (← streamGet 4) label.toList)
  | 4 =>
    let addr ← streamGet 4
    return some (.ipv4Ifindex addr (← streamGetl))
  | 6 =>
    streamForwardGetp 16
    return none
  | 9 => return some .blackhole
  | _ => return none

def loopIpv4 (label : Option UInt32) : Nat → Get (List Nexthop)
  | 0 => return []
  | n + 1 => do
    let nexthop ← getNexthopIpv4 label
    return nexthop.toList ++ (← loopIpv4 label n)

def Nexthop.gateway? : Nexthop → Option (List UInt8)
  | .ipv4 addr _ | .ipv4Ifindex addr _ | .ipv6 addr | .ipv6Ifindex addr _ => some addr
  | _ => none

def Nexthop.ifindex? : Nexthop → Option UInt32
  | .ifindex i | .ipv4Ifindex _ i | .ipv6Ifindex _ i => some i
  | _ => none

def getNexthopsIpv4 (label : Option UInt32) : Get Nexthops := do
  let nexthopNum ← streamGetc
  let nexthops ← loopIpv4 label nexthopNum.toNat
  return (nexthops.filterMap (·.gateway?), nexthops.filterMap (·.ifindex?), nexthops)

def zreadIpv4Add (rtmTableDefault : UInt32) (vrfId : UInt16) : Get Received :=
  zreadAdd 4 rtmTableDefault vrfId getNexthopsIpv4

/-- The loop of `zread_ipv6_add` over the gateways; the arrays keep the first `MULTIPATH_NUM`. -/
def loopIpv6 : Nat → List (List UInt8) → List UInt32 → Get (List (List UInt8) × List UInt32)
  | 0, nexthops, ifindices => return (nexthops, ifindices)
  | n + 1, nexthops, ifindices => do
    match ← streamGetc with
    | 6 =>
      let nexthop ← streamGet 16
      loopIpv6 n (if nexthops.length < MULTIPATH_NUM then nexthops ++ [nexthop] else nexthops)
        ifindices
    | 1 =>
      let ifindex ← streamGetl
      loopIpv6 n nexthops
        (if ifindices.length < MULTIPATH_NUM then ifindices ++ [ifindex] else ifindices)
    | _ => loopIpv6 n nexthops ifindices

/-- The nexthop that the gateway and the interface of one index make. -/
def coalesce (gateway : Option (List UInt8)) (ifindex : Option UInt32) : Option Nexthop :=
  let gateway := gateway.filter fun addr => addr.any (· ≠ 0)
  let ifindex := ifindex.filter (· ≠ 0)
  match gateway, ifindex with
  | some addr, some ifindex => some (.ipv6Ifindex addr ifindex)
  | some addr, none => some (.ipv6 addr)
  | none, some ifindex => some (.ifindex ifindex)
  | none, none => none

def getNexthopsIpv6 : Get Nexthops := do
  let gatewayNum ← streamGetc
  let (nexthops, ifindices) ← loopIpv6 gatewayNum.toNat [] []
  return (nexthops, ifindices,
    (List.range (max nexthops.length ifindices.length)).filterMap
      fun i => coalesce nexthops[i]? ifindices[i]?)

def zreadIpv6Add (rtmTableDefault : UInt32) (vrfId : UInt16) : Get Received :=
  zreadAdd 16 rtmTableDefault vrfId fun _ => getNexthopsIpv6

/-- `zebra_client_read` of one whole message, up to the dispatch on the command. -/
def zebraClientRead {α : Type} (zread : UInt16 → Get α) : Get α := do
  let length ← streamGetw
  let marker ← streamGetc
  let version ← streamGetc
  let vrfId ← streamGetw
  let _command ← streamGetw
  if marker ≠ ZEBRA_HEADER_MARKER ∨ version ≠ ZSERV_VERSION then failure
  else if length < ZEBRA_HEADER_SIZE ∨ STREAM_SIZE < length.toNat then failure
  else if (← get).length ≠ length.toNat - 8 then failure
  else zread vrfId

/-! ### The round trip -/

/-- Every field that was sent is received, and no other flag is seen. -/
structure Recovered {size : Nat} (p : Prefix size) (api : Zapi size) (r : Received) : Prop where
  seen : ∀ a, checkFlag r.message a = api.sent a
  type : r.rib.type = api.type
  flags : r.rib.flags = api.flags
  safi : r.safi = api.safi
  vrfId : r.rib.vrfId = api.vrfId
  prefixlen : r.prefixlen = p.prefixlen
  addr : r.addr.take (psize p.prefixlen) = p.addr.take (psize p.prefixlen)
  label : api.sent .label → r.label = some api.label
  gateways : api.sent .nexthop → r.gateways = api.nexthop
  ifindexes : api.sent .nexthop → r.ifindexes = api.ifindex
  distance : api.sent .distance → r.rib.distance = api.distance
  metric : api.sent .metric → r.rib.metric = api.metric
  mtu : api.sent .mtu → r.rib.mtu = api.mtu
  tag : api.sent .tag → r.rib.tag = api.tag
  table : api.sent .table → r.rib.table = api.table

/-- The message that `route` writes is read to its end by `zread`, and all of it is recovered. -/
def RoundTrip {size : Nat} (p : Prefix size) (api : Zapi size) (route : Put)
    (zread : UInt16 → Get Received) : Prop :=
  ∃ bytes r, route.run [] = some ((), bytes) ∧ (zebraClientRead zread).run bytes = some (r, []) ∧
    Recovered p api r

end Dir842.Quagga
