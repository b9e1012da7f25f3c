import Dir842.Lib.Run
import Mathlib.Data.List.Nodup
import Mathlib.Data.List.Count

/-!
# Tunnel service ids in charon's stroke control plugin

`0002_tunnel_id.patch` keeps a JSON array `charon->pair` of `{name, id}` objects: `send_connect`
appends one and notifies the service manager, `send_disconnect` looks the name up, removes the
first match and notifies. The four message handlers are `initiate`, `terminate`, `route` and
`unroute`. jansson's `json_pack` refuses a string that is not valid UTF-8; that check is the
parameter `utf8`.
-/

namespace Dir842.StrokeControl
open Run

abbrev Name := List UInt8

/-- jansson's check of a string; it accepts the empty one. -/
structure Utf8Check where
  check : Name → Bool
  nil : check [] = true

instance : CoeFun Utf8Check fun _ => Name → Bool := ⟨Utf8Check.check⟩

/-- A call of `dlink_service_connect` or `dlink_service_disconnect`, with the tunnel it is for. -/
inductive Notify
  | connect (name : Name) (id : Int)
  | disconnect (name : Name) (id : Int)
deriving DecidableEq

structure Charon where
  /-- `charon->pair`, `NULL` until the first `send_connect`. -/
  pair : Option (List (Name × Int)) := none
  /-- The notifications sent so far. -/
  sent : List Notify := []
deriving DecidableEq

/-- The entries `json_array_foreach` visits: none for `NULL`. -/
def Charon.entries (c : Charon) : List (Name × Int) := c.pair.getD []

def Charon.names (c : Charon) : List Name := c.entries.map Prod.fst

def sendConnect (utf8 : Utf8Check) (serviceId : Int) (name : Name) (c : Charon) : Charon :=
  if serviceId = 0 then c
  else
    -- a failed `json_pack` gives `NULL`, which `json_array_append_new` drops
    { pair := some (if utf8 name then c.entries ++ [(name, serviceId)] else c.entries)
      sent := c.sent ++ [.connect name serviceId] }

/-- The loop of `send_disconnect`: the id of the first entry for `name` and the array without it. -/
def removeFirst (name : Name) : List (Name × Int) → Option (Int × List (Name × Int))
  | [] => none
  | (nameSa, id) :: rest =>
    if nameSa = name then some (id, rest)
    else (removeFirst name rest).map fun p => (p.1, (nameSa, id) :: p.2)

def sendDisconnect (name : Option Name) (c : Charon) : Charon :=
  match name with
  | none | some [] => c
  | some name =>
    match removeFirst name c.entries with
    | none => c
    | some (id, rest) => { pair := some rest, sent := c.sent ++ [.disconnect name id] }

/-- What `parse_specifier` makes of the string of a terminate. -/
inductive Specifier
  | error
  /-- A number, which leaves the name `NULL`; the tunnel is that of the SA with the number. -/
  | id (tunnel : Option Name)
  | name (name : Name)

inductive StrokeMsg
  /-- `configFound`: a peer and child config of that name exist, else the handler returns early. -/
  | initiate (name : Name) (serviceId : Int) (configFound : Bool)
  | route (name : Name) (serviceId : Int) (configFound : Bool)
  | terminate (specifier : Specifier)
  | unroute (name : Name) (serviceId : Int)

/-- One stroke message. `charon_initiate`, `charon_route` and the termination of the SAs do not
touch the pair list. -/
def handle (utf8 : Utf8Check) (c : Charon) : StrokeMsg → Charon
  | .initiate name serviceId configFound =>
    if configFound then sendConnect utf8 serviceId name c else c
  | .route name serviceId configFound =>
    if configFound then sendConnect utf8 serviceId name c else c
  | .terminate .error => c
  | .terminate (.id _) => sendDisconnect none c
  | .terminate (.name name) => sendDisconnect (some name) c
  | .unroute name serviceId => sendConnect utf8 serviceId name c

/-- The tunnel a message closes. -/
def StrokeMsg.closes : StrokeMsg → Option Name
  | .terminate (.id tunnel) => tunnel
  | .terminate (.name name) => some name
  | .unroute name _ => some name
  | _ => none

def Charon.connects (c : Charon) (name : Name) (id : Int) : Nat := c.sent.count (.connect name id)

def Charon.disconnects (c : Charon) (name : Name) (id : Int) : Nat :=
  c.sent.count (.disconnect name id)

/-- Each connect notification of `name` has exactly one disconnect with the same id. -/
def Charon.Matched (c : Charon) (name : Name) : Prop :=
  ∀ id, c.connects name id = c.disconnects name id

/-- The bookkeeping a message has to leave behind. -/
structure Bookkept (utf8 : Utf8Check) (c : Charon) (m : StrokeMsg) : Prop where
  unique : (handle utf8 c m).names.Nodup
  /-- A terminate arriving next would match every connect of its tunnel. -/
  closable : ∀ name, name ≠ [] →
    (handle utf8 (handle utf8 c m) (.terminate (.name name))).Matched name
  matched : ∀ name, m.closes = some name → (handle utf8 c m).Matched name
  noneLeft : ∀ name, m.closes = some name → name ∉ (handle utf8 c m).names
  frame : ∀ name, m.closes = some name →
    (handle utf8 c m).entries.filter (·.1 ≠ name) = c.entries.filter (·.1 ≠ name)

/-- When a message is handled as it should be: a connect is sent only for a name the list can hold
and does not hold yet, an `unroute` carries no service id and finds no entry, and a terminate by number
finds no entry for its tunnel. -/
def Safe (utf8 : Utf8Check) (c : Charon) : StrokeMsg → Prop
  | .initiate name serviceId configFound | .route name serviceId configFound =>
    configFound = true → serviceId ≠ 0 → utf8 name = true ∧ name ∉ c.names
  | .terminate .error => True
  | .terminate (.id tunnel) => ∀ name, tunnel = some name → name ∉ c.names
  | .terminate (.name name) => name = [] → name ∉ c.names
  | .unroute name serviceId => serviceId = 0 ∧ name ∉ c.names

/-- The pair list holds each open connect once. -/
structure Inv (c : Charon) : Prop where
  unique : c.names.Nodup
  balance : ∀ name id,
    c.connects name id = c.disconnects name id + c.entries.count (name, id)

/-! ### The loop -/

theorem removeFirst_none {name : Name} {l : List (Name × Int)} :
    removeFirst name l = none ↔ name ∉ l.map Prod.fst := by
  induction l with
  | nil => simp [removeFirst]
  | cons e l ih =>
    obtain ⟨n, id⟩ := e
    simp only [removeFirst, List.map_cons, List.mem_cons, not_or]
    split
    · rename_i hn; simp [hn]
    · rename_i hn; rw [Option.map_eq_none_iff, ih]; simp [Ne.symm hn]

theorem removeFirst_some {name : Name} {l rest : List (Name × Int)} {id : Int}
    (h : removeFirst name l = some (id, rest)) :
    ∃ pre post, l = pre ++ (name, id) :: post ∧ rest = pre ++ post ∧ name ∉ pre.map Prod.fst := by
  induction l generalizing rest with
  | nil => cases h
  | cons e l ih =>
    obtain ⟨n, i⟩ := e
    simp only [removeFirst] at h
    split at h
    · rename_i hn
      simp only [Option.some.injEq, Prod.mk.injEq] at h
      obtain ⟨rfl, rfl⟩ := h
      exact ⟨[], l, by rw [hn]; rfl, rfl, by simp⟩
    · rename_i hn
      obtain ⟨⟨i', r⟩, hr, he⟩ := Option.map_eq_some_iff.mp h
      simp only [Prod.mk.injEq] at he
      obtain ⟨rfl, rfl⟩ := he
      obtain ⟨pre, post, rfl, rfl, hpre⟩ := ih hr
      exact ⟨(n, i) :: pre, post, rfl, rfl, by simp [hpre, Ne.symm hn]⟩

theorem sendDisconnect_of_not_mem {name : Name} {c : Charon} (h : name ∉ c.names) :
    sendDisconnect (some name) c = c := by
  unfold sendDisconnect
  split
  · rfl
  · rfl
  · rename_i heq
    cases heq
    rw [removeFirst_none.mpr h]

theorem sendDisconnect_of_mem {name : Name} {c : Charon} (hne : name ≠ []) (h : name ∈ c.names) :
    ∃ pre id post, c.entries = pre ++ (name, id) :: post ∧ name ∉ pre.map Prod.fst ∧
      sendDisconnect (some name) c =
        { pair := some (pre ++ post), sent := c.sent ++ [.disconnect name id] } := by
  cases hr : removeFirst name c.entries with
  | none => exact absurd h (removeFirst_none.mp hr)
  | some p =>
    obtain ⟨id, rest⟩ := p
    obtain ⟨pre, post, he, rfl, hpre⟩ := removeFirst_some hr
    refine ⟨pre, id, post, he, hpre, ?_⟩
    unfold sendDisconnect
    split
    · rename_i heq; cases heq
    · rename_i heq; cases heq; exact absurd rfl hne
    · rename_i heq; cases heq; rw [hr]

/-! ### The notifiers keep the invariant -/

theorem Inv.matched {c : Charon} (h : Inv c) {name : Name} (hn : name ∉ c.names) :
    c.Matched name := by
  intro id
  have hc : c.entries.count (name, id) = 0 :=
    List.count_eq_zero.mpr fun hmem => hn (List.mem_map.mpr ⟨_, hmem, rfl⟩)
  rw [h.balance, hc, Nat.add_zero]

theorem Inv.sendConnect {utf8 : Utf8Check} {c : Charon} {id : Int} {name : Name} (h : Inv c)
    (hs : id ≠ 0 → utf8 name = true ∧ name ∉ c.names) : Inv (sendConnect utf8 id name c) := by
  unfold StrokeControl.sendConnect
  split
  · exact h
  · rename_i hid
    obtain ⟨hu, hn⟩ := hs hid
    rw [if_pos hu]
    refine ⟨?_, fun n i => ?_⟩
    · show ((c.entries ++ [(name, id)]).map Prod.fst).Nodup
      rw [List.map_append, List.nodup_append]
      exact ⟨h.unique, List.nodup_singleton _, fun a ha b hb hab => by
        rw [List.mem_singleton.mp hb] at hab
        exact hn (by rw [← show a = name from hab]; exact ha)⟩
    · have hb := h.balance n i
      simp only [Charon.connects, Charon.disconnects, Charon.entries, List.count_append,
        List.count_singleton, Option.getD_some] at hb ⊢
      have : (Notify.connect name id == Notify.connect n i) = ((name, id) == (n, i)) := by
        rw [Bool.eq_iff_iff]; simp
      rw [this, hb]
      simp only [beq_iff_eq, reduceCtorEq, ↓reduceIte]
      omega

@[simp] theorem connects_sendDisconnect (name : Option Name) (c : Charon) (n : Name) (i : Int) :
    (sendDisconnect name c).connects n i = c.connects n i := by
  unfold sendDisconnect
  split
  · rfl
  · rfl
  · split
    · rfl
    · simp [Charon.connects]

/-- A disconnect is sent for an entry that leaves the list. -/
theorem sendDisconnect_balance (name : Option Name) (c : Charon) (n : Name) (i : Int) :
    (sendDisconnect name c).disconnects n i + (sendDisconnect name c).entries.count (n, i) =
      c.disconnects n i + c.entries.count (n, i) := by
  match name with
  | none | some [] => rfl
  | some (b :: bs) =>
    by_cases hn : b :: bs ∈ c.names
    · obtain ⟨pre, id, post, he, -, hs⟩ := sendDisconnect_of_mem (by simp) hn
      rw [hs, he]
      simp only [Charon.disconnects, Charon.entries, List.count_append, List.count_nil,
        Option.getD_some, List.count_cons, beq_iff_eq, Notify.disconnect.injEq, Prod.mk.injEq]
      omega
    · rw [sendDisconnect_of_not_mem hn]

theorem Inv.sendDisconnect {c : Charon} {name : Option Name} (h : Inv c) :
    Inv (sendDisconnect name c) := by
  refine ⟨?_, fun n i => by
    have hb := h.balance n i
    rw [connects_sendDisconnect, sendDisconnect_balance, hb]⟩
  match name with
  | none | some [] => exact h.unique
  | some (b :: bs) =>
    by_cases hn : b :: bs ∈ c.names
    · obtain ⟨pre, id, post, he, -, hs⟩ := sendDisconnect_of_mem (by simp) hn
      have hu := h.unique
      rw [Charon.names, he] at hu
      rw [hs]
      exact hu.sublist (((List.sublist_cons_self _ post).append_left pre).map _)
    · rw [sendDisconnect_of_not_mem hn]; exact h.unique

theorem Inv.handle {utf8 : Utf8Check} {c : Charon} {m : StrokeMsg} (h : Inv c)
    (hs : Safe utf8 c m) : Inv (handle utf8 c m) := by
  match m with
  | .initiate n id found | .route n id found =>
    simp only [StrokeControl.handle]
    split
    · exact h.sendConnect (hs ‹_›)
    · exact h
  | .terminate .error => exact h
  | .terminate (.id _) => exact h
  | .terminate (.name n) => exact h.sendDisconnect
  | .unroute n id => exact h.sendConnect fun hid => absurd hs.1 hid

/-! ### What one message leaves behind -/

section
variable {utf8 : Utf8Check} {c : Charon}

theorem Inv.sendDisconnect_not_mem {name : Name} (h : Inv c) (hn : name = [] → name ∉ c.names) :
    name ∉ (StrokeControl.sendDisconnect (some name) c).names := by
  by_cases hmem : name ∈ c.names
  · obtain ⟨pre, id, post, he, hpre, hs⟩ :=
      sendDisconnect_of_mem (fun h0 => hn h0 hmem) hmem
    have hu := h.unique
    rw [Charon.names, he, List.map_append, List.map_cons, List.nodup_middle,
      List.nodup_cons] at hu
    rw [hs]
    show name ∉ (pre ++ post).map Prod.fst
    rw [List.map_append]; exact hu.1
  · rw [sendDisconnect_of_not_mem hmem]; exact hmem

theorem sendDisconnect_filter {name : Name} :
    (sendDisconnect (some name) c).entries.filter (·.1 ≠ name) =
      c.entries.filter (·.1 ≠ name) := by
  by_cases h : name ≠ [] ∧ name ∈ c.names
  · obtain ⟨pre, id, post, he, -, hs⟩ := sendDisconnect_of_mem h.1 h.2
    rw [hs, he]
    simp [Charon.entries, List.filter_append]
  · rw [not_and_or, not_not] at h
    rcases h with rfl | h
    · rfl
    · rw [sendDisconnect_of_not_mem h]

theorem Inv.terminate_matched {name : Name} (h : Inv c) (hn : name = [] → name ∉ c.names) :
    (StrokeControl.sendDisconnect (some name) c).Matched name :=
  h.sendDisconnect.matched (h.sendDisconnect_not_mem hn)

theorem closes_eq_some {m : StrokeMsg} {name : Name} (h : m.closes = some name) :
    m = .terminate (.id (some name)) ∨ m = .terminate (.name name) ∨
      ∃ id, m = .unroute name id := by
  match m with
  | .terminate (.id tunnel) => exact .inl (by rw [show tunnel = some name from h])
  | .terminate (.name n) => exact .inr (.inl (by rw [show n = name from Option.some.inj h]))
  | .unroute n id => exact .inr (.inr ⟨id, by rw [show n = name from Option.some.inj h]⟩)

theorem Safe.bookkept {m : StrokeMsg} (h : Inv c) (hs : Safe utf8 c m) : Bookkept utf8 c m := by
  have h' : Inv (handle utf8 c m) := h.handle hs
  refine ⟨h'.unique, fun n hn => h'.terminate_matched fun h0 => absurd h0 hn, ?_, ?_, ?_⟩
  · intro name hc
    rcases closes_eq_some hc with rfl | rfl | ⟨id, rfl⟩
    · exact h.matched (hs name rfl)
    · exact h.terminate_matched hs
    · obtain ⟨rfl, hn⟩ := hs; exact h.matched hn
  · intro name hc
    rcases closes_eq_some hc with rfl | rfl | ⟨id, rfl⟩
    · exact hs name rfl
    · exact h.sendDisconnect_not_mem hs
    · obtain ⟨rfl, hn⟩ := hs; exact hn
  · intro name hc
    rcases closes_eq_some hc with rfl | rfl | ⟨id, rfl⟩
    · rfl
    · exact sendDisconnect_filter
    · obtain ⟨rfl, -⟩ := hs; rfl

/-- A connect for a name that the list already holds, or cannot hold, breaks the bookkeeping. -/
theorem Bookkept.of_sendConnect {m : StrokeMsg} {id : Int} {name : Name} (h : Inv c)
    (hb : Bookkept utf8 c m) (hm : handle utf8 c m = sendConnect utf8 id name c) (hid : id ≠ 0) :
    utf8 name = true ∧ name ∉ c.names := by
  have hu := hb.unique
  have hc := hb.closable name
  rw [hm] at hu hc
  by_cases hutf : utf8 name = true
  · refine ⟨hutf, fun hmem => ?_⟩
    simp only [sendConnect, hid, ↓reduceIte, hutf, Charon.names, Charon.entries,
      Option.getD_some, List.map_append, List.nodup_append] at hu
    exact hu.2.2 name hmem name (by simp) rfl
  · exfalso
    have hne : name ≠ [] := fun h0 => hutf (h0 ▸ utf8.nil)
    -- the connect is sent, but no entry can ever be removed for it
    have hc := hc hne id
    have hbal := sendDisconnect_balance (some name) (sendConnect utf8 id name c) name id
    have hinv := h.balance name id
    simp only [handle, connects_sendDisconnect] at hc
    rw [← hc] at hbal
    simp only [sendConnect, hid, ↓reduceIte, hutf, Charon.connects, Charon.disconnects,
      Charon.entries, Option.getD_some, List.count_append, List.count_singleton, beq_self_eq_true,
      beq_iff_eq, reduceCtorEq, Bool.false_eq_true] at hbal hinv
    omega

theorem Bookkept.safe {m : StrokeMsg} (h : Inv c) (hb : Bookkept utf8 c m) : Safe utf8 c m := by
  match m with
  | .initiate n id found | .route n id found =>
    intro hf hid
    exact hb.of_sendConnect h (by rw [hf]; rfl) hid
  | .terminate .error => trivial
  | .terminate (.id tunnel) =>
    rintro name rfl
    exact hb.noneLeft name rfl
  | .terminate (.name n) =>
    rintro rfl
    exact hb.noneLeft [] rfl
  | .unroute n id =>
    have hleft : n ∉ (sendConnect utf8 id n c).names := hb.noneLeft n rfl
    by_cases hid : id = 0
    · subst hid; exact ⟨rfl, hleft⟩
    · exfalso
      obtain ⟨hu, -⟩ := hb.of_sendConnect h rfl hid
      simp [sendConnect, hid, hu, Charon.names, Charon.entries] at hleft

theorem bookkept_iff_safe {m : StrokeMsg} (h : Inv c) : Bookkept utf8 c m ↔ Safe utf8 c m :=
  ⟨Bookkept.safe h, Safe.bookkept h⟩

end

/-! ### Runs -/

theorem inv_init : Inv {} := ⟨List.nodup_nil, fun _ _ => rfl⟩

/-- Over every run from charon's start: the bookkeeping is right at each message exactly when each
message is a `Safe` one. -/
theorem run_bookkept_iff (utf8 : Utf8Check) (msgs : List StrokeMsg) :
    Along (handle utf8) (Bookkept utf8) {} msgs ↔ Along (handle utf8) (Safe utf8) {} msgs :=
  along_iff_of_inv (fun _ _ => bookkept_iff_safe) (fun _ _ => Inv.handle) inv_init

def asciiCheck : Utf8Check := ⟨fun name => name.all (· < 128), rfl⟩

/-- Initiated and unrouted with its id 7: `unroute` sends a second connect instead of the
disconnect. -/
theorem not_bookkept_unroute :
    ¬ Along (handle asciiCheck) (Bookkept asciiCheck) {}
      [.initiate [97] 7 true, .unroute [97] 7] := by
  rw [run_bookkept_iff]
  rintro ⟨-, hs, -⟩
  exact absurd hs.1 (by decide)

end Dir842.StrokeControl
