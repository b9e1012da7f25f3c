import Dir842.Quagga.Zapi

/-!
# The round trip of ZAPI route messages

`zreadAdd_run` takes a message apart: what zebra has left to read when it comes to the attributes.
From there the attributes as written are longer than as read exactly when the flag `0x40` is set,
so a message is read to its end only without it.
-/

namespace Dir842.Quagga
open Codec

/-- `label` and `table` have one flag. -/
@[simp]
def seen (sent : Attr → Bool) : Attr → Bool
  | .label | .table => sent .label || sent .table
  | a => sent a

def sentOf (b₁ b₂ b₃ b₄ b₅ b₆ b₇ b₈ : Bool) : Attr → Bool
  | .nexthop => b₁ | .ifindex => b₂ | .distance => b₃ | .metric => b₄
  | .mtu => b₅ | .tag => b₆ | .label => b₇ | .table => b₈

/-- The flags that the macros give. -/
theorem checkFlag_message {size : Nat} (api : Zapi size) (a : Attr) :
    checkFlag api.message a = seen api.sent a := by
  have h : ∀ b₁ b₂ b₃ b₄ b₅ b₆ b₇ b₈ : Bool,
      ∀ a ∈ [Attr.nexthop, .ifindex, .distance, .metric, .mtu, .tag, .label, .table],
        checkFlag ([.nexthop, .ifindex, .distance, .metric, .mtu, .tag, .label, .table].foldl
            (fun m a => if sentOf b₁ b₂ b₃ b₄ b₅ b₆ b₇ b₈ a then m ||| a.flag else m) 0) a =
          seen (sentOf b₁ b₂ b₃ b₄ b₅ b₆ b₇ b₈) a := by decide
  have h := h (api.sent .nexthop) (api.sent .ifindex) (api.sent .distance) (api.sent .metric)
    (api.sent .mtu) (api.sent .tag) (api.sent .label) (api.sent .table) a
  cases a <;> exact h (by decide)

/-! ### The bytes of a message -/

section bytes
variable {size : Nat} (p : Prefix size) (api : Zapi size)

/-- An optional part of the message. -/
def optional (c : Bool) (bs : List UInt8) : List UInt8 := if c then bs else []

def headBytes : List UInt8 :=
  [api.type] ++ ([api.flags] ++ ([api.message] ++ (bytesw api.safi.toUInt16 ++
    ([p.prefixlen] ++ p.addr.take (psize p.prefixlen)))))

def labelBytes : List UInt8 := optional (checkFlag api.message .label) (bytesl api.label)

/-- The attributes that both sides know under the same names. -/
def attrBytes : List UInt8 :=
  optional (checkFlag api.message .distance) [api.distance] ++
    (optional (checkFlag api.message .metric) (bytesl api.metric) ++
    (optional (checkFlag api.message .mtu) (bytesl api.mtu) ++
    optional (checkFlag api.message .tag) (bytesl api.tag)))

/-- The table is put twice. -/
def tableBytes : List UInt8 :=
  optional (checkFlag api.message .table) [api.table.toUInt8] ++
    optional (checkFlag api.message .table) (bytesl api.table)

/-- The message after its header. -/
def bodyBytes (nexthopBytes : List UInt8) : List UInt8 :=
  headBytes p api ++ (labelBytes api ++
    (optional (checkFlag api.message .nexthop) nexthopBytes ++ (attrBytes api ++ tableBytes api)))

def headerBytes (cmd : UInt8) (length : UInt16) : List UInt8 :=
  bytesw length ++ ([ZEBRA_HEADER_MARKER] ++ ([ZSERV_VERSION] ++ (bytesw api.vrfId ++
    bytesw cmd.toUInt16)))

theorem writes_putIf {c : Bool} {m : Put} {bs : List UInt8}
    (h : c = true → Writes STREAM_SIZE m bs) :
    Writes STREAM_SIZE (putIf c m) (optional c bs) := Writes.ite h

theorem writes_putRoute (cmd : UInt8) {putNexthops : Put} {nexthopBytes : List UInt8}
    (h : checkFlag api.message .nexthop = true → Writes STREAM_SIZE putNexthops nexthopBytes) :
    Writes STREAM_SIZE (putRoute cmd p api putNexthops)
      (headerBytes api cmd ZEBRA_HEADER_SIZE ++ bodyBytes p api nexthopBytes) := by
  have hheader : Writes STREAM_SIZE (zclientCreateHeader cmd.toUInt16 api.vrfId)
      (headerBytes api cmd ZEBRA_HEADER_SIZE) :=
    (writes_putw _).bind <| (writes_putc _).bind <| (writes_putc _).bind <|
      (writes_putw _).bind (writes_putw _)
  unfold putRoute
  refine (congrArg (Writes _ _) ?_).mp <| hheader.bind <| (writes_putc _).bind <|
    (writes_putc _).bind <| (writes_putc _).bind <| (writes_putw _).bind <| (writes_putc _).bind <|
    (writes_write _).bind <| (writes_putIf fun _ => writes_putl _).bind <| (writes_putIf h).bind <|
    (writes_putIf fun _ => writes_putc _).bind <| (writes_putIf fun _ => writes_putl _).bind <|
    (writes_putIf fun _ => writes_putl _).bind <| (writes_putIf fun _ => writes_putl _).bind <|
    (writes_putIf fun _ => writes_putc _).bind (writes_putIf fun _ => writes_putl _)
  simp only [bodyBytes, headBytes, labelBytes, attrBytes, tableBytes, List.append_assoc]

theorem headerBytes_length (cmd : UInt8) (length : UInt16) :
    (headerBytes api cmd length).length = 8 := rfl

/-- The whole message, when it fits the stream. -/
theorem zapiRoute_run (cmd : UInt8) {putNexthops : Put} {nexthopBytes : List UInt8}
    (h : checkFlag api.message .nexthop = true → Writes STREAM_SIZE putNexthops nexthopBytes)
    (hlen : 8 + (bodyBytes p api nexthopBytes).length ≤ STREAM_SIZE) :
    (zapiRoute cmd p api putNexthops).run [] = some ((),
      headerBytes api cmd (.ofNat (8 + (bodyBytes p api nexthopBytes).length)) ++
        bodyBytes p api nexthopBytes) := by
  have hroute := writes_putRoute p api cmd h []
  rw [List.length_append, headerBytes_length] at hroute
  rw [zapiRoute, StateT.run_bind, hroute (by simpa using hlen)]
  simp only [List.nil_append, StateT.run_bind, StateT.run_get, Option.pure_def, Option.bind_eq_bind,
    Option.bind_some, List.length_append, headerBytes_length]
  exact run_putwAtStart ..

end bytes

/-! ### Reading it -/

section reading
variable {size : Nat} (p : Prefix size) (api : Zapi size)

/-- The header is read away. -/
theorem zebraClientRead_run (cmd : UInt8) (zread : UInt16 → Get Received) (body : List UInt8)
    (hlen : 8 + body.length ≤ STREAM_SIZE) :
    (zebraClientRead zread).run (headerBytes api cmd (.ofNat (8 + body.length)) ++ body) =
      (zread api.vrfId).run body := by
  have hnat : (UInt16.ofNat (8 + body.length)).toNat = 8 + body.length := by
    rw [UInt16.toNat_ofNat', Nat.mod_eq_of_lt (by simp only [STREAM_SIZE] at hlen; omega)]
  simp only [headerBytes, List.append_assoc, zebraClientRead]
  rw [(reads_getw _).run_bind, (reads_getc _).run_bind, (reads_getc _).run_bind,
    (reads_getw _).run_bind, (reads_getw _).run_bind, if_neg (by decide), if_neg, StateT.run_bind]
  · show (if body.length ≠ _ then failure else zread api.vrfId).run body = _
    rw [hnat, if_neg (by omega)]
  · rw [hnat, UInt16.lt_iff_toNat_lt, hnat]
    rintro (h | h)
    · exact absurd h (by simp [ZEBRA_HEADER_SIZE])
    · omega

/-- The label as zebra sees it. -/
def seenLabel : Option UInt32 := if checkFlag api.message .label then some api.label else none

/-- What zebra has when it comes to the attributes. -/
def beforeAttrs (nexthops : Nexthops) : Received where
  message := api.message
  safi := api.safi
  prefixlen := p.prefixlen
  addr := p.addr.take (psize p.prefixlen) ++
    List.replicate (size - (p.addr.take (psize p.prefixlen)).length) 0
  label := seenLabel api
  gateways := nexthops.1
  ifindexes := nexthops.2.1
  rib := ⟨api.type, api.flags, api.vrfId, nexthops.2.2, 0, 0, 0, 0, 0⟩

theorem reads_getIf {α : Type} {c : Bool} {m : Get α} {bs : List UInt8} {a default : α}
    (h : c = true → Reads m bs a) :
    Reads (getIf c m default) (optional c bs) (if c then a else default) :=
  Reads.ite h fun _ => Reads.pure default

theorem addr_take_length : (p.addr.take (psize p.prefixlen)).length = psize p.prefixlen := by
  have := p.prefixlen_le
  rw [List.length_take, p.addr_length, psize]
  omega

theorem zreadAdd_run (rtmTableDefault : UInt32) {getNexthops : Option UInt32 → Get Nexthops}
    {bs : List UInt8} {nexthops : Nexthops}
    (h : checkFlag api.message .nexthop = true → Reads (getNexthops (seenLabel api)) bs nexthops)
    (rest : List UInt8) :
    (zreadAdd size rtmTableDefault api.vrfId getNexthops).run (headBytes p api ++
        (labelBytes api ++ (optional (checkFlag api.message .nexthop) bs ++ rest))) =
      (getAttrs rtmTableDefault (beforeAttrs p api
        (if checkFlag api.message .nexthop then nexthops else ([], [], [])))).run rest := by
  have hlabel : Reads (getIf (checkFlag api.message .label) (some <$> streamGetl) none)
      (labelBytes api) (seenLabel api) := reads_getIf fun _ => (reads_getl _).map
  simp only [headBytes, List.append_assoc, zreadAdd]
  rw [(reads_getc _).run_bind, (reads_getc _).run_bind, (reads_getc _).run_bind,
    (reads_getw _).run_bind, (reads_getc _).run_bind, (reads_get (addr_take_length p)).run_bind, hlabel.run_bind,
    (reads_getIf h).run_bind, UInt8.toUInt8_toUInt16]
  rfl

/-- What zebra reads of the attributes. -/
def attrSize (message : UInt8) : Nat :=
  (if checkFlag message .distance then 1 else 0) + ((if checkFlag message .metric then 4 else 0) +
    ((if checkFlag message .mtu then 4 else 0) + ((if checkFlag message .tag then 4 else 0) +
      ((if checkFlag message .table then 4 else 0) + 0))))

theorem consumes_getIf {α : Type} {c : Bool} {m : Get α} {n : Nat} {default : α}
    (h : Consumes m n) : Consumes (getIf c m default) (if c then n else 0) :=
  Consumes.ite h (Consumes.pure default)

theorem consumes_getAttrs (rtmTableDefault : UInt32) (r : Received) :
    Consumes (getAttrs rtmTableDefault r) (attrSize r.message) :=
  (consumes_getIf consumes_getc).bind fun _ => (consumes_getIf consumes_getl).bind fun _ =>
    (consumes_getIf consumes_getl).bind fun _ => (consumes_getIf consumes_getl).bind fun _ =>
    (consumes_getIf consumes_getl).bind fun _ => Consumes.pure _

theorem attrBytes_length :
    (attrBytes api ++ tableBytes api).length =
      attrSize api.message + if checkFlag api.message .table then 1 else 0 := by
  simp only [attrBytes, tableBytes, attrSize, optional, bytesl, List.length_append, apply_ite List.length,
    List.length_cons, List.length_nil, Nat.zero_add, Nat.reduceAdd]
  split <;> omega

/-- A message is read to its end only if all its nexthops are, and without the flag `0x40`. -/
theorem eq_nil_of_run_eq_nil (rtmTableDefault : UInt32) (r₀ r : Received)
    (hr₀ : r₀.message = api.message) {left : List UInt8}
    (h : (getAttrs rtmTableDefault r₀).run (left ++ (attrBytes api ++ tableBytes api)) =
      some (r, [])) :
    left = [] ∧ checkFlag api.message .table = false := by
  have hlen := consumes_getAttrs rtmTableDefault r₀ _ _ _ h
  rw [List.length_append, attrBytes_length, hr₀, List.length_nil] at hlen
  refine ⟨List.length_eq_zero_iff.mp (by omega), ?_⟩
  by_contra hc
  rw [if_pos (by simpa using hc)] at hlen
  omega

theorem bodyBytes_length_le (nexthopBytes : List UInt8) :
    (bodyBytes p api nexthopBytes).length ≤ size + 28 + nexthopBytes.length := by
  have hopt : ∀ c bs, (optional c bs).length ≤ bs.length := fun c bs => by
    unfold optional
    split <;> simp
  have hattr := attrBytes_length api
  have hlabel := hopt (checkFlag api.message .label) (bytesl api.label)
  have hnexthop := hopt (checkFlag api.message .nexthop) nexthopBytes
  have haddr : (p.addr.take (psize p.prefixlen)).length ≤ size := by
    rw [List.length_take, p.addr_length]
    omega
  have hsize : attrSize api.message ≤ 17 := by
    simp only [attrSize]
    split <;> split <;> split <;> split <;> split <;> omega
  have hbit : (if checkFlag api.message .table then 1 else 0) ≤ 1 := by split <;> omega
  simp only [bodyBytes, headBytes, labelBytes, bytesw, bytesl, List.length_append, List.length_cons,
    List.length_nil] at *
  omega

/-- What zebra has in the end. -/
def afterAttrs (rtmTableDefault : UInt32) (r : Received) : Received :=
  { r with
    rib := { r.rib with
      distance := if checkFlag api.message .distance then api.distance else r.rib.distance
      metric := if checkFlag api.message .metric then api.metric else r.rib.metric
      mtu := if checkFlag api.message .mtu then api.mtu else r.rib.mtu
      tag := if checkFlag api.message .tag then api.tag else r.rib.tag
      table := rtmTableDefault } }

theorem getAttrs_run (rtmTableDefault : UInt32) (r : Received) (hr : r.message = api.message)
    (htable : checkFlag api.message .table = false) :
    (getAttrs rtmTableDefault r).run (attrBytes api ++ tableBytes api) =
      some (afterAttrs api rtmTableDefault r, []) := by
  have htb : tableBytes api = [] := by simp [tableBytes, optional, htable]
  obtain ⟨message, safi, prefixlen, addr, label, gateways, ifindexes, rib⟩ := r
  obtain rfl : message = api.message := hr
  rw [htb]
  simp only [attrBytes, List.append_assoc, getAttrs]
  rw [(reads_getIf fun _ => reads_getc _).run_bind, (reads_getIf fun _ => reads_getl _).run_bind,
    (reads_getIf fun _ => reads_getl _).run_bind, (reads_getIf fun _ => reads_getl _).run_bind,
    htable]
  rfl

end reading

/-! ### The round trip, up to the nexthops -/

section roundTrip
variable {size : Nat} (p : Prefix size) (api : Zapi size) (rtmTableDefault : UInt32)

theorem recovered_iff (htable : checkFlag api.message .table = false) (nexthops : Nexthops) :
    Recovered p api (afterAttrs api rtmTableDefault (beforeAttrs p api nexthops)) ↔
      (api.sent .nexthop → nexthops.1 = api.nexthop ∧ nexthops.2.1 = api.ifindex) := by
  have hflag := checkFlag_message api
  have hbit : api.sent .label = false ∧ api.sent .table = false := by
    simpa [hflag] using htable
  refine ⟨fun h hs => ⟨h.gateways hs, h.ifindexes hs⟩, fun h => ?_⟩
  refine {
    seen := fun a => ?_, type := rfl, flags := rfl, safi := rfl, vrfId := rfl, prefixlen := rfl
    addr := ?_, label := ?_, gateways := fun hs => (h hs).1, ifindexes := fun hs => (h hs).2
    distance := ?_, metric := ?_, mtu := ?_, tag := ?_, table := ?_ }
  · show checkFlag api.message a = _
    rw [hflag]
    cases a <;> simp [hbit]
  · have haddr := addr_take_length p
    show (p.addr.take _ ++ _).take _ = _
    rw [List.take_append_of_le_length (Nat.le_of_eq haddr.symm), List.take_take, Nat.min_self]
  · simp [hbit]
  all_goals simp_all [afterAttrs]

/-- The messages that come back are those without the flag `0x40` whose nexthops are all read; `bs`
is what zebra reads of the nexthops, and `left` what it does not. -/
theorem roundTrip_iff (cmd : UInt8) {putNexthops : Put}
    {getNexthops : Option UInt32 → Get Nexthops} {bs left : List UInt8} {nexthops : Nexthops}
    (hput : api.sent .nexthop = true → Writes STREAM_SIZE putNexthops (bs ++ left))
    (hget : api.sent .nexthop = true → Reads (getNexthops (seenLabel api)) bs nexthops)
    (hlen : 8 + (bodyBytes p api (bs ++ left)).length ≤ STREAM_SIZE) :
    RoundTrip p api (zapiRoute cmd p api putNexthops)
        (fun vrfId => zreadAdd size rtmTableDefault vrfId getNexthops) ↔
      (api.sent .label = false ∧ api.sent .table = false) ∧
        (api.sent .nexthop → left = [] ∧ nexthops.1 = api.nexthop ∧ nexthops.2.1 = api.ifindex) := by
  have hflag := checkFlag_message api
  have hc : checkFlag api.message .nexthop = api.sent .nexthop := hflag _
  rw [← hc] at hput hget
  have hroute := zapiRoute_run p api cmd hput hlen
  have hread : (zebraClientRead fun vrfId => zreadAdd size rtmTableDefault vrfId getNexthops).run
      (headerBytes api cmd (.ofNat (8 + (bodyBytes p api (bs ++ left)).length)) ++
        bodyBytes p api (bs ++ left)) =
      (getAttrs rtmTableDefault (beforeAttrs p api
        (if checkFlag api.message .nexthop then nexthops else ([], [], [])))).run
        (optional (checkFlag api.message .nexthop) left ++ (attrBytes api ++ tableBytes api)) := by
    rw [zebraClientRead_run _ _ _ _ hlen, ← zreadAdd_run p api rtmTableDefault hget]
    refine congrArg _ ?_
    simp only [bodyBytes, optional]
    split <;> simp
  have hbit : checkFlag api.message .table = false ↔
      api.sent .label = false ∧ api.sent .table = false := by
    rw [hflag, seen, Bool.or_eq_false_iff]
  rw [← hbit]
  constructor
  · rintro ⟨bytes, r, hbytes, hr, hrec⟩
    obtain rfl := (Prod.mk.inj (Option.some.inj (hroute.symm.trans hbytes))).2
    rw [hread] at hr
    obtain ⟨hleft, htable⟩ := eq_nil_of_run_eq_nil api rtmTableDefault _ r rfl hr
    rw [hleft, List.nil_append, getAttrs_run api rtmTableDefault _ rfl htable] at hr
    obtain rfl := (Prod.mk.inj (Option.some.inj hr)).1
    refine ⟨htable, fun hs => ?_⟩
    have hrec := (recovered_iff p api rtmTableDefault htable _).mp hrec hs
    rw [hc, hs] at hrec hleft
    exact ⟨hleft, hrec⟩
  · rintro ⟨htable, h⟩
    have hleft : optional (checkFlag api.message .nexthop) left = [] := by
      rw [hc, optional]
      split
      exacts [(h ‹_›).1, rfl]
    rw [hleft, List.nil_append, getAttrs_run api rtmTableDefault _ rfl htable] at hread
    refine ⟨_, _, hroute, hread, (recovered_iff p api rtmTableDefault htable _).mpr fun hs => ?_⟩
    rw [hc, if_pos hs]
    exact (h hs).2

end roundTrip

/-! ### IPv4 -/

section ipv4
variable (p : Prefix 4) (api : Zapi 4)

/-- The nexthops of a message: their bytes and what zebra makes of them. -/
def entriesIpv4 (label : Option UInt32) : List (List UInt8 × Nexthop) :=
  (if api.blackhole then [([ZEBRA_NEXTHOP_BLACKHOLE], .blackhole)] else []) ++
    (api.nexthop.map fun a => ([ZEBRA_NEXTHOP_IPV4] ++ a, .ipv4 a label.toList)) ++
    api.ifindex.map fun i => ([ZEBRA_NEXTHOP_IFINDEX] ++ bytesl i, .ifindex i)

/-- The number of nexthops that the message announces. -/
def countIpv4 : UInt8 := if api.blackhole then 1 else api.nexthopNum + api.ifindexNum

theorem writes_putIfindexes {size : Nat} (api : Zapi size) :
    Writes STREAM_SIZE (putIfindexes api)
      (api.ifindex.flatMap fun i => [ZEBRA_NEXTHOP_IFINDEX] ++ bytesl i) :=
  Writes.forM _ fun _ _ => (writes_putc _).bind (writes_putl _)

theorem writes_putNexthopsIpv4 (label : Option UInt32) :
    Writes STREAM_SIZE (putNexthopsIpv4 api)
      ([countIpv4 api] ++ (entriesIpv4 api label).flatMap (·.1)) := by
  have hnexthop : Writes STREAM_SIZE (api.nexthop.forM fun nexthop => do
      streamPutc ZEBRA_NEXTHOP_IPV4
      streamPutInAddr nexthop) (api.nexthop.flatMap fun a => [ZEBRA_NEXTHOP_IPV4] ++ a) :=
    Writes.forM _ fun a _ => (writes_putc _).bind (writes_putInAddr a)
  have hrest := hnexthop.bind (writes_putIfindexes api)
  unfold putNexthopsIpv4 countIpv4 entriesIpv4
  split
  · refine (congrArg (Writes _ _) ?_).mp ((writes_putc _).bind ((writes_putc _).bind hrest))
    simp [List.flatMap_map]
  · refine (congrArg (Writes _ _) ?_).mp ((writes_putc _).bind hrest)
    simp [List.flatMap_map]

theorem reads_loopIpv4 {label : Option UInt32} {l : List (List UInt8 × Nexthop)}
    (h : ∀ e ∈ l, Reads (getNexthopIpv4 label) e.1 (some e.2)) :
    Reads (loopIpv4 label l.length) (l.flatMap (·.1)) (l.map (·.2)) := by
  induction l with
  | nil => exact Reads.pure []
  | cons e l ih =>
    have hl := ih fun e' he => h e' (List.mem_cons_of_mem _ he)
    exact (h e (List.mem_cons_self ..)).bind hl.bind_pure

theorem reads_getNexthopIpv4 {label : Option UInt32} {e : List UInt8 × Nexthop}
    (he : e ∈ entriesIpv4 api label) : Reads (getNexthopIpv4 label) e.1 (some e.2) := by
  simp only [entriesIpv4, List.mem_append, List.mem_map] at he
  rcases he with (he | ⟨a, ha, rfl⟩) | ⟨i, -, rfl⟩
  · split at he
    · obtain rfl := List.mem_singleton.mp he
      exact fun rest => rfl
    · simp at he
  · exact (reads_getc _).bind (reads_get (api.nexthop_length a ha)).bind_pure
  · exact (reads_getc _).bind (reads_getl i).bind_pure

theorem entriesIpv4_length (label : Option UInt32) :
    (entriesIpv4 api label).length =
      (if api.blackhole then 1 else 0) + api.nexthop.length + api.ifindex.length := by
  simp only [entriesIpv4, List.length_append, List.length_map, apply_ite List.length,
    List.length_cons, List.length_nil]

theorem countIpv4_toNat : (countIpv4 api).toNat =
    if api.blackhole then 1 else (api.nexthop.length + api.ifindex.length) % 256 := by
  unfold countIpv4
  split
  · rfl
  · rw [UInt8.toNat_add, Zapi.nexthopNum, Zapi.ifindexNum, UInt8.toNat_ofNat', UInt8.toNat_ofNat']
    omega

/-- The announced number is that of the nexthops, as the comments of the source have it. -/
def CountIpv4 : Prop :=
  if api.blackhole then api.nexthop = [] ∧ api.ifindex = []
  else api.nexthop.length + api.ifindex.length < 256

theorem countIpv4_iff (label : Option UInt32) :
    (entriesIpv4 api label).length ≤ (countIpv4 api).toNat ↔ CountIpv4 api := by
  rw [entriesIpv4_length, countIpv4_toNat, CountIpv4]
  split
  · rw [← List.length_eq_zero_iff, ← List.length_eq_zero_iff]
    omega
  · omega

theorem entriesIpv4_sent (label : Option UInt32) :
    ((entriesIpv4 api label).map (·.2)).filterMap (·.gateway?) = api.nexthop ∧
      ((entriesIpv4 api label).map (·.2)).filterMap (·.ifindex?) = api.ifindex := by
  unfold entriesIpv4
  split <;> simp [List.filterMap_map, Function.comp_def, Nexthop.gateway?, Nexthop.ifindex?]

theorem entriesIpv4_bytes {label : Option UInt32} {e : List UInt8 × Nexthop}
    (he : e ∈ entriesIpv4 api label) : 0 < e.1.length ∧ e.1.length ≤ 5 := by
  simp only [entriesIpv4, List.mem_append, List.mem_map] at he
  rcases he with (he | ⟨a, ha, rfl⟩) | ⟨i, -, rfl⟩
  · split at he
    · obtain rfl := List.mem_singleton.mp he
      simp
    · simp at he
  · simp [api.nexthop_length a ha]
  · simp [bytesl]

theorem length_flatMap_le {α β : Type} (f : α → List β) {k : Nat} (l : List α)
    (h : ∀ a ∈ l, (f a).length ≤ k) : (l.flatMap f).length ≤ k * l.length := by
  induction l with
  | nil => simp
  | cons a l ih =>
    have := h a (List.mem_cons_self ..)
    have := ih fun b hb => h b (List.mem_cons_of_mem _ hb)
    rw [List.flatMap_cons, List.length_append, List.length_cons, Nat.mul_succ]
    omega

theorem countIpv4_le (label : Option UInt32) :
    (countIpv4 api).toNat ≤ (entriesIpv4 api label).length := by
  rw [entriesIpv4_length, countIpv4_toNat]
  split
  · omega
  · have := Nat.mod_le (api.nexthop.length + api.ifindex.length) 256
    omega

/-- zebra reads as many of the nexthops as are announced. -/
theorem reads_getNexthopsIpv4 {label : Option UInt32} {es : List (List UInt8 × Nexthop)}
    (h : ∀ e ∈ es, e ∈ entriesIpv4 api label) (hlen : es.length = (countIpv4 api).toNat) :
    Reads (getNexthopsIpv4 label) ([countIpv4 api] ++ es.flatMap (·.1))
      ((es.map (·.2)).filterMap (·.gateway?), (es.map (·.2)).filterMap (·.ifindex?),
        es.map (·.2)) := by
  have hloop : Reads (loopIpv4 label (countIpv4 api).toNat) (es.flatMap (·.1)) (es.map (·.2)) :=
    hlen ▸ reads_loopIpv4 fun e he => reads_getNexthopIpv4 api (h e he)
  exact (reads_getc _).bind hloop.bind_pure

/-- The buffer has room for all nexthops that a message can have. -/
theorem bodyBytes_ipv4_length_le (label : Option UInt32) :
    8 + (bodyBytes p api ([countIpv4 api] ++ (entriesIpv4 api label).flatMap (·.1))).length ≤
      STREAM_SIZE := by
  have hbody := bodyBytes_length_le p api
    ([countIpv4 api] ++ (entriesIpv4 api label).flatMap (·.1))
  have hflat := length_flatMap_le (·.1) (entriesIpv4 api label) fun e he =>
    (entriesIpv4_bytes api he).2
  have hcount := entriesIpv4_length api label
  have hbit : (if api.blackhole then 1 else 0) ≤ 1 := by split <;> omega
  have := api.nexthopNum_lt
  have := api.ifindexNum_lt
  rw [List.length_append, List.length_singleton] at hbody
  simp only [STREAM_SIZE]
  omega

theorem ipv4_roundTrip_iff (cmd : UInt8) (rtmTableDefault : UInt32) :
    RoundTrip p api (zapiIpv4Route cmd p api) (zreadIpv4Add rtmTableDefault) ↔
      (api.sent .label = false ∧ api.sent .table = false) ∧
        (api.sent .nexthop → CountIpv4 api) := by
  set entries := entriesIpv4 api (seenLabel api) with hentries
  set k := (countIpv4 api).toNat with hk
  -- what is announced, and what is left behind it
  have hall : ([countIpv4 api] ++ (entries.take k).flatMap (·.1)) ++ (entries.drop k).flatMap (·.1) =
      [countIpv4 api] ++ entries.flatMap (·.1) := by
    rw [List.append_assoc, ← List.flatMap_append, List.take_append_drop]
  have hput : Writes STREAM_SIZE (putNexthopsIpv4 api)
      (([countIpv4 api] ++ (entries.take k).flatMap (·.1)) ++ (entries.drop k).flatMap (·.1)) :=
    hall ▸ writes_putNexthopsIpv4 api _
  have hget := @reads_getNexthopsIpv4 api (seenLabel api) (entries.take k)
    (fun _ => List.mem_of_mem_take)
    (List.length_take.trans (Nat.min_eq_left (countIpv4_le api (seenLabel api))))
  have hlen : 8 + (bodyBytes p api (([countIpv4 api] ++ (entries.take k).flatMap (·.1)) ++
      (entries.drop k).flatMap (·.1))).length ≤ STREAM_SIZE :=
    hall ▸ bodyBytes_ipv4_length_le p api (seenLabel api)
  refine (roundTrip_iff p api rtmTableDefault cmd (fun _ => hput) (fun _ => hget) hlen).trans
    (and_congr_right fun _ => forall_congr' fun _ => ?_)
  rw [← countIpv4_iff api (seenLabel api), ← hentries]
  constructor
  · rintro ⟨hleft, -, -⟩
    by_contra hlt
    have hdrop : 0 < (entries.drop k).length := by
      rw [List.length_drop]
      omega
    obtain ⟨e, he⟩ := List.exists_mem_of_length_pos hdrop
    have hnil := List.flatMap_eq_nil_iff.mp hleft e he
    have hpos := (entriesIpv4_bytes api (List.mem_of_mem_drop he)).1
    rw [hnil] at hpos
    exact absurd hpos (by simp)
  · intro h
    rw [List.drop_of_length_le h, List.take_of_length_le h]
    exact ⟨rfl, entriesIpv4_sent api _⟩

end ipv4

/-! ### IPv6 -/

section ipv6
variable (p : Prefix 16) (api : Zapi 16)

theorem writes_putNexthopsIpv6 :
    Writes STREAM_SIZE (putNexthopsIpv6 api) ([api.nexthopNum + api.ifindexNum] ++
      ((api.nexthop.flatMap fun a => [ZEBRA_NEXTHOP_IPV6] ++ a) ++
        api.ifindex.flatMap fun i => [ZEBRA_NEXTHOP_IFINDEX] ++ bytesl i)) :=
  (writes_putc _).bind <| (Writes.forM _ fun a _ => (writes_putc _).bind (writes_write a)).bind
    (writes_putIfindexes api)

theorem yields_loopIpv6 (n : Nat) {nexthops : List (List UInt8)} {ifindices : List UInt32}
    (hn : nexthops.length ≤ MULTIPATH_NUM) (hi : ifindices.length ≤ MULTIPATH_NUM) :
    Yields (loopIpv6 n nexthops ifindices) fun a =>
      a.1.length ≤ MULTIPATH_NUM ∧ a.2.length ≤ MULTIPATH_NUM := by
  induction n generalizing nexthops ifindices with
  | zero => exact Yields.pure ⟨hn, hi⟩
  | succ n ih =>
    refine Yields.of_bind fun type => ?_
    split
    · refine Yields.of_bind fun a => ih ?_ hi
      split
      · rw [List.length_append, List.length_singleton]
        omega
      · exact hn
    · refine Yields.of_bind fun i => ih hn ?_
      split
      · rw [List.length_append, List.length_singleton]
        omega
      · exact hi
    · exact ih hn hi

/-- Zebra keeps no more gateways and interfaces than its arrays hold. -/
theorem yields_zreadIpv6Add (rtmTableDefault : UInt32) (vrfId : UInt16) :
    Yields (zreadIpv6Add rtmTableDefault vrfId) fun r =>
      r.gateways.length ≤ MULTIPATH_NUM ∧ r.ifindexes.length ≤ MULTIPATH_NUM := by
  have hnexthops : Yields getNexthopsIpv6 fun v =>
      v.1.length ≤ MULTIPATH_NUM ∧ v.2.1.length ≤ MULTIPATH_NUM :=
    Yields.of_bind fun n => (yields_loopIpv6 _ (Nat.zero_le _) (Nat.zero_le _)).bind fun _ ha =>
      Yields.pure ha
  refine Yields.of_bind fun type => Yields.of_bind fun flags => Yields.of_bind fun message =>
    Yields.of_bind fun safi => Yields.of_bind fun prefixlen => Yields.of_bind fun addr =>
    Yields.of_bind fun label => (Yields.ite hnexthops (Yields.pure (by simp))).bind fun v hv => ?_
  exact Yields.of_bind fun _ => Yields.of_bind fun _ => Yields.of_bind fun _ =>
    Yields.of_bind fun _ => Yields.of_bind fun _ => Yields.pure hv

theorem yields_zebraClientRead {zread : UInt16 → Get Received} {Q : Received → Prop}
    (h : ∀ vrfId, Yields (zread vrfId) Q) : Yields (zebraClientRead zread) Q :=
  Yields.of_bind fun _ => Yields.of_bind fun _ => Yields.of_bind fun _ => Yields.of_bind fun vrfId =>
    Yields.of_bind fun _ => Yields.ite Yields.failure <| Yields.ite Yields.failure <|
      Yields.of_bind fun _ => Yields.ite Yields.failure (h vrfId)

theorem run_loopIpv6_gateways {l : List (List UInt8)} (hl : ∀ a ∈ l, a.length = 16) (k : Nat)
    {nexthops : List (List UInt8)} (ifindices : List UInt32)
    (hn : nexthops.length + l.length ≤ MULTIPATH_NUM) (rest : List UInt8) :
    (loopIpv6 (l.length + k) nexthops ifindices).run
        ((l.flatMap fun a => [ZEBRA_NEXTHOP_IPV6] ++ a) ++ rest) =
      (loopIpv6 k (nexthops ++ l) ifindices).run rest := by
  induction l generalizing nexthops with
  | nil => simp
  | cons a l ih =>
    rw [List.length_cons] at hn
    rw [List.flatMap_cons, List.length_cons, Nat.add_right_comm, loopIpv6, List.append_assoc,
      List.append_assoc, (reads_getc _).run_bind]
    show (streamGet 16 >>= _).run _ = _
    rw [(reads_get (hl a (List.mem_cons_self ..))).run_bind, if_pos (by omega),
      ih (fun b hb => hl b (List.mem_cons_of_mem _ hb))
        (by rw [List.length_append, List.length_singleton]; omega), List.append_assoc]
    rfl

theorem run_loopIpv6_ifindexes {l : List UInt32} (k : Nat) (nexthops : List (List UInt8))
    {ifindices : List UInt32} (hi : ifindices.length + l.length ≤ MULTIPATH_NUM)
    (rest : List UInt8) :
    (loopIpv6 (l.length + k) nexthops ifindices).run
        ((l.flatMap fun i => [ZEBRA_NEXTHOP_IFINDEX] ++ bytesl i) ++ rest) =
      (loopIpv6 k nexthops (ifindices ++ l)).run rest := by
  induction l generalizing ifindices with
  | nil => simp
  | cons i l ih =>
    rw [List.length_cons] at hi
    rw [List.flatMap_cons, List.length_cons, Nat.add_right_comm, loopIpv6, List.append_assoc,
      List.append_assoc, (reads_getc _).run_bind]
    show (streamGetl >>= _).run _ = _
    rw [(reads_getl i).run_bind, if_pos (by omega),
      ih (by rw [List.length_append, List.length_singleton]; omega), List.append_assoc]
    rfl

/-- All of the nexthops are kept if the arrays are large enough. -/
theorem reads_getNexthopsIpv6 (hn : api.nexthop.length ≤ MULTIPATH_NUM)
    (hi : api.ifindex.length ≤ MULTIPATH_NUM) : ∃ nexthops,
    Reads getNexthopsIpv6 ([api.nexthopNum + api.ifindexNum] ++
      ((api.nexthop.flatMap fun a => [ZEBRA_NEXTHOP_IPV6] ++ a) ++
        api.ifindex.flatMap fun i => [ZEBRA_NEXTHOP_IFINDEX] ++ bytesl i))
      (api.nexthop, api.ifindex, nexthops) := by
  have hnum : (api.nexthopNum + api.ifindexNum).toNat = api.nexthop.length + api.ifindex.length := by
    simp only [MULTIPATH_NUM] at hn hi
    rw [UInt8.toNat_add, Zapi.nexthopNum, Zapi.ifindexNum, UInt8.toNat_ofNat', UInt8.toNat_ofNat']
    omega
  have hloop : Reads (loopIpv6 (api.nexthopNum + api.ifindexNum).toNat [] [])
      ((api.nexthop.flatMap fun a => [ZEBRA_NEXTHOP_IPV6] ++ a) ++
        api.ifindex.flatMap fun i => [ZEBRA_NEXTHOP_IFINDEX] ++ bytesl i)
      (api.nexthop, api.ifindex) := by
    intro rest
    rw [hnum, List.append_assoc, run_loopIpv6_gateways api.nexthop_length _ _ (by simpa using hn)]
    have hi : ([] : List UInt32).length + api.ifindex.length ≤ MULTIPATH_NUM := by simpa using hi
    exact run_loopIpv6_ifindexes 0 ([] ++ api.nexthop) hi rest
  exact ⟨_, (reads_getc _).bind hloop.bind_pure⟩

theorem ipv6_roundTrip_iff (cmd : UInt8) (rtmTableDefault : UInt32) :
    RoundTrip p api (zapiIpv6Route cmd p api) (zreadIpv6Add rtmTableDefault) ↔
      (api.sent .label = false ∧ api.sent .table = false) ∧
        (api.sent .nexthop → api.nexthop.length ≤ MULTIPATH_NUM ∧
          api.ifindex.length ≤ MULTIPATH_NUM) := by
  by_cases hs : api.sent .nexthop = true
  · by_cases hcount : api.nexthop.length ≤ MULTIPATH_NUM ∧ api.ifindex.length ≤ MULTIPATH_NUM
    · obtain ⟨nexthops, hget⟩ := reads_getNexthopsIpv6 api hcount.1 hcount.2
      have hput := writes_putNexthopsIpv6 api
      rw [← List.append_nil (_ ++ _)] at hput
      have hlen := bodyBytes_length_le p api ([api.nexthopNum + api.ifindexNum] ++
        ((api.nexthop.flatMap fun a => [ZEBRA_NEXTHOP_IPV6] ++ a) ++
          api.ifindex.flatMap fun i => [ZEBRA_NEXTHOP_IFINDEX] ++ bytesl i) ++ [])
      have hn := length_flatMap_le (fun a => [ZEBRA_NEXTHOP_IPV6] ++ a) api.nexthop
        fun a ha => (by simp [api.nexthop_length a ha] : _ ≤ 17)
      have hi := length_flatMap_le (fun i => [ZEBRA_NEXTHOP_IFINDEX] ++ bytesl i) api.ifindex
        fun i _ => (by simp [bytesl] : _ ≤ 5)
      rw [List.append_nil, List.length_append, List.length_append, List.length_singleton] at hlen
      have hfits : 8 + (28 + 16 + (1 + (17 * MULTIPATH_NUM + 5 * MULTIPATH_NUM))) ≤ STREAM_SIZE := by
        decide
      refine (roundTrip_iff p api rtmTableDefault cmd (fun _ => hput) (fun _ => hget) ?_).trans
        (and_congr_right fun _ => iff_of_true (fun _ => ⟨rfl, rfl, rfl⟩) fun _ => hcount)
      rw [List.append_nil]
      have := Nat.mul_le_mul_left 17 hcount.1
      have := Nat.mul_le_mul_left 5 hcount.2
      omega
    · refine iff_of_false ?_ fun h => hcount (h.2 hs)
      rintro ⟨bytes, r, -, hr, hrec⟩
      have hr := yields_zebraClientRead (yields_zreadIpv6Add rtmTableDefault) _ _ _ hr
      rw [hrec.gateways hs, hrec.ifindexes hs] at hr
      exact hcount hr
  · have hput : api.sent .nexthop = true → Writes STREAM_SIZE (putNexthopsIpv6 api) ([] ++ []) :=
      fun h => absurd h hs
    have hget : api.sent .nexthop = true → Reads getNexthopsIpv6 [] ([], [], []) :=
      fun h => absurd h hs
    have hlen := bodyBytes_length_le p api ([] ++ [])
    refine (roundTrip_iff p api rtmTableDefault cmd hput hget ?_).trans
      (and_congr_right fun _ => iff_of_true (fun h => absurd h hs) fun h => absurd h hs)
    simp only [STREAM_SIZE]
    rw [List.append_nil, List.length_nil] at hlen
    rw [List.append_nil]
    omega

end ipv6

def defaultPrefix : Prefix 4 := ⟨0, [0, 0, 0, 0], rfl, by decide⟩

/-- A route for table 100, without attributes. -/
def tableRoute : Zapi 4 where
  type := 9
  flags := 0
  sent := (· = .table)
  safi := 1
  nexthop := []
  ifindex := []
  distance := 0
  tag := 0
  metric := 0
  mtu := 0
  table := 100
  label := 0
  vrfId := 0
  nexthop_length := List.forall_mem_nil _
  nexthopNum_lt := by decide
  ifindexNum_lt := by decide

end Dir842.Quagga
