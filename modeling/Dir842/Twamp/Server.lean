import Dir842.Lib.Run
import Mathlib.Tactic.Linarith

/-!
# Timeouts of the TWAMP server

`0003-timeout_port.patch` gives `server.c` one `select()` timeout for all clients. The patch is
modelled word by word (`minimum_timeout`, `timeout_type`, `check_connected_clients` and the places
that write a timestamp). The message handlers of the unpatched server know nothing of the
timestamps, so an event carries what they leave in the fields they own.

`lastActive` is not a field of the source: it records when the client or session was last heard
of, and nothing reads it but the statements about idleness.
-/

namespace Dir842.Twamp
open Run

def MAX_CLIENTS : Nat := 10
def MAX_SESSIONS_PER_CLIENT : Nat := 10

inductive ClientStatus
  | kOffline
  | kConnected
  | kTesting
  /-- A state the patch does not name. -/
  | other
deriving DecidableEq

structure ActiveSession where
  socket : Int := 0
  timestamp : Int := 0
  lastActive : Int := 0

/-- `struct client_info`; `sessions` is the array, of which `[0, sess_no)` are accepted. -/
structure ClientInfo where
  status : ClientStatus := .kOffline
  sessNo : Nat := 0
  sessions : Nat → ActiveSession := fun _ => {}
  timestamp : Int := 0
  lastActive : Int := 0

/-- `custom_opt_t`, zeroed before the options are parsed: 0 is an option that is not set. -/
structure CustomOpt where
  serverTimeout : Int := 0
  reflectTimeout : Int := 0

/-! ### The patch -/

def sessionTimeout (now : Int) (opt : CustomOpt) (timeout : Int) (s : ActiveSession) : Int :=
  if s.timestamp = 0 then timeout
  else
    let sessTo := now - s.timestamp
    let sessTo := if sessTo = 0 then opt.reflectTimeout else sessTo
    if sessTo < timeout then sessTo else timeout

def clientTimeout (now : Int) (opt : CustomOpt) (timeout : Int) (c : ClientInfo) : Int :=
  if c.status = .kOffline then timeout
  else
    let timeout :=
      (List.range c.sessNo).foldl (fun t j => sessionTimeout now opt t (c.sessions j)) timeout
    if c.timestamp = 0 ∨ now < c.timestamp then timeout
    else
      let connTo := now - c.timestamp
      let connTo := if connTo = 0 then opt.serverTimeout else connTo
      if connTo < timeout then connTo else timeout

def minimumTimeout (now : Int) (opt : CustomOpt) (clients : List ClientInfo) : Int :=
  clients.foldl (clientTimeout now opt) 900

inductive TimeoutType
  | unknow
  | server
  | reflector
deriving DecidableEq

def timeoutType (timeout : Int) (opt : CustomOpt) : TimeoutType :=
  if timeout = 0 then .unknow
  else if timeout ≤ opt.reflectTimeout then .reflector
  else .server

/-- The `cleanup` flag of one client in `check_connected_clients`. -/
def expired (now timeout : Int) (c : ClientInfo) : TimeoutType → Bool
  | .unknow => false
  | .server => c.status = .kConnected ∧ now - c.timestamp ≥ timeout
  | .reflector => c.status = .kTesting ∧ (List.range c.sessNo).any fun j =>
      0 < (c.sessions j).socket ∧ ¬ now - (c.sessions j).timestamp < timeout

/-- The `memset` of `cleanup_client`. -/
def cleanupClient : ClientInfo := {}

def checkConnectedClients (now timeout : Int) (type : TimeoutType) (clients : List ClientInfo) :
    List ClientInfo :=
  clients.map fun c => if expired now timeout c type then cleanupClient else c

/-! ### The main loop -/

inductive Phase
  | running
  /-- `select()` failed and the server exited. -/
  | exited
  /-- A write outside the sessions array. -/
  | undefined
deriving DecidableEq

structure Server where
  clock : Int
  clients : List ClientInfo := List.replicate MAX_CLIENTS {}
  phase : Phase := .running

/-- What happens between two calls of `select()`. -/
inductive Event
  | tick (seconds : Nat)
  | newConnection
  /-- A control message other than Start-Sessions, with what its handler leaves behind. -/
  | controlMessage (i : Nat) (status : ClientStatus) (sessNo : Nat) (socket : Nat → Int)
  | startSessions (i : Nat)
  | testPacket (i j : Nat)
  /-- Sessions that ended: sockets closed, the state perhaps changed, nothing received. -/
  | sessionsEnded (i : Nat) (status : ClientStatus) (socket : Nat → Int)
  | hangup (i : Nat)

def ClientInfo.setSockets (c : ClientInfo) (socket : Nat → Int) : ClientInfo :=
  { c with sessions := fun j => { c.sessions j with socket := socket j } }

def Server.modify (s : Server) (i : Nat) (f : ClientInfo → ClientInfo) : Server :=
  { s with clients := s.clients.modify i f }

def findEmptyClient (clients : List ClientInfo) : Option Nat :=
  clients.findIdx? (·.status = .kOffline)

/-- `receive_start_sessions`: after the loop over the accepted sessions `i` is `sess_no`, and it is
the entry there that gets the timestamp. -/
def ClientInfo.startSessions (now : Int) (c : ClientInfo) : ClientInfo :=
  { c with
    status := .kTesting
    lastActive := now
    sessions := fun j =>
      if j = c.sessNo then { c.sessions j with timestamp := now }
      else if j < c.sessNo then { c.sessions j with lastActive := now }
      else c.sessions j }

def Event.apply (s : Server) : Event → Server
  | .tick seconds => { s with clock := s.clock + seconds }
  | .newConnection =>
    match findEmptyClient s.clients with
    | none => s
    | some pos => s.modify pos fun c =>
      { c with status := .kConnected, timestamp := s.clock, sessNo := 0, lastActive := s.clock }
  | .controlMessage i status sessNo socket =>
    s.modify i fun c =>
      { c.setSockets socket with status := status, sessNo := sessNo, lastActive := s.clock }
  | .startSessions i =>
    if (s.clients[i]?.getD {}).sessNo < MAX_SESSIONS_PER_CLIENT then
      s.modify i (·.startSessions s.clock)
    else { s with phase := .undefined }
  | .testPacket i j =>
    s.modify i fun c =>
      { c with
        lastActive := s.clock
        sessions := fun k =>
          if k = j then { c.sessions j with timestamp := s.clock, lastActive := s.clock }
          else c.sessions k }
  | .sessionsEnded i status socket =>
    s.modify i fun c => { c.setSockets socket with status := status }
  | .hangup i => s.modify i fun _ => cleanupClient

/-- How one `select()` of the main loop ends. -/
inductive Step
  /-- Descriptors are ready and are handled. -/
  | ready (events : List Event)
  /-- The timeout passed, and `late` more seconds until the clients are checked. -/
  | expire (late : Nat)

/-- The wait that the loop hands to `select()`. -/
def Server.wait (opt : CustomOpt) (s : Server) : Int := minimumTimeout s.clock opt s.clients

/-- The clock when an expired `select()` is followed by the check. -/
def Server.expiry (opt : CustomOpt) (s : Server) (late : Nat) : Int :=
  s.clock + s.wait opt + late

def loop (opt : CustomOpt) (s : Server) (step : Step) : Server :=
  if s.phase ≠ .running then s
  -- `select()` refuses a negative timeout
  else if s.wait opt < 0 then { s with phase := .exited }
  else match step with
    | .ready events => events.foldl Event.apply s
    | .expire late =>
      { s with
        clock := s.expiry opt late
        clients := checkConnectedClients (s.expiry opt late) (s.wait opt)
          (timeoutType (s.wait opt) opt) s.clients }

/-! ### Idleness -/

def serverWait (opt : CustomOpt) : Int := if opt.serverTimeout = 0 then 900 else opt.serverTimeout

def reflectWait (opt : CustomOpt) : Int :=
  if opt.reflectTimeout = 0 then 900 else opt.reflectTimeout

/-- `j` is an active session of `c`. -/
def ClientInfo.Active (c : ClientInfo) (j : Nat) : Prop :=
  j < c.sessNo ∧ 0 < (c.sessions j).socket

/-- The client may be cleaned up at `now` for its idleness. -/
def Idle (opt : CustomOpt) (now : Int) (c : ClientInfo) : Prop :=
  (c.status = .kConnected → serverWait opt ≤ now - c.lastActive) ∧
  (c.status = .kTesting →
    ∃ j, c.Active j ∧ reflectWait opt ≤ now - (c.sessions j).lastActive)

/-- A step cleans up for idleness only who is idle long enough. -/
def NoEarlyCleanup (opt : CustomOpt) (s : Server) : Step → Prop
  | .ready _ => True
  | .expire late => ∀ (i : Nat) (c : ClientInfo), s.clients[i]? = some c →
      c.status ≠ .kOffline → (loop opt s (.expire late)).clients[i]? = some cleanupClient →
        Idle opt (s.expiry opt late) c

/-- How much longer the client may be idle. -/
def ClientInfo.timeLeft (opt : CustomOpt) (now : Int) (c : ClientInfo) : Int :=
  serverWait opt - (now - c.lastActive)

def ActiveSession.timeLeft (opt : CustomOpt) (now : Int) (s : ActiveSession) : Int :=
  reflectWait opt - (now - s.lastActive)

/-- How long ago `stamp` was written, and `timeout` within the same second. -/
def since (now stamp timeout : Int) : Int := if now = stamp then timeout else now - stamp

/-- The times that the wait is the least of: SERVWAIT, how long ago each client connected, and how
long ago a packet of each session was received. -/
inductive Delay (opt : CustomOpt) (s : Server) : Int → Prop
  | servwait : Delay opt s 900
  | session {c : ClientInfo} {j : Nat} : c ∈ s.clients → c.status ≠ .kOffline → j < c.sessNo →
      (c.sessions j).timestamp ≠ 0 →
      Delay opt s (since s.clock (c.sessions j).timestamp opt.reflectTimeout)
  | client {c : ClientInfo} : c ∈ s.clients → c.status ≠ .kOffline → c.timestamp ≠ 0 →
      Delay opt s (since s.clock c.timestamp opt.serverTimeout)

/-- No delay is shorter than the time that the clients have left for which `select()` expires: the
connected ones if every delay is above the reflect timeout, otherwise the testing ones with an
active session. -/
def TimeLeftPasses (opt : CustomOpt) (s : Server) : Step → Prop
  | .ready _ => True
  | .expire late => s.phase = .running → (∀ d, Delay opt s d → 0 < d) →
      ((∀ d, Delay opt s d → opt.reflectTimeout < d) →
        ∀ c ∈ s.clients, c.status = .kConnected →
          ∀ d, Delay opt s d → c.timeLeft opt s.clock ≤ d + late) ∧
      ((∃ d, Delay opt s d ∧ d ≤ opt.reflectTimeout) →
        ∀ c ∈ s.clients, c.status = .kTesting → (∃ j, c.Active j) →
          ∃ j, c.Active j ∧
            ∀ d, Delay opt s d → (c.sessions j).timeLeft opt s.clock ≤ d + late)

/-! ### Timestamps never lie ahead of the clock -/

structure Inv (s : Server) : Prop where
  clock : 0 ≤ s.clock
  client : ∀ c ∈ s.clients, c.timestamp ≤ s.clock
  session : ∀ c ∈ s.clients, ∀ j, (c.sessions j).timestamp ≤ s.clock

theorem Inv.modify {s : Server} (h : Inv s) (i : Nat) (f : ClientInfo → ClientInfo)
    (hc : ∀ c ∈ s.clients, (f c).timestamp ≤ s.clock)
    (hs : ∀ c ∈ s.clients, ∀ j, ((f c).sessions j).timestamp ≤ s.clock) : Inv (s.modify i f) := by
  have hmem : ∀ c ∈ (s.modify i f).clients, c ∈ s.clients ∨ ∃ c' ∈ s.clients, f c' = c := by
    intro c hc
    obtain ⟨k, hk⟩ := List.mem_iff_getElem?.mp hc
    simp only [Server.modify, List.getElem?_modify] at hk
    obtain ⟨c', hc', rfl⟩ := Option.map_eq_some_iff.mp hk
    have hm := List.mem_iff_getElem?.mpr ⟨k, hc'⟩
    split
    · exact .inr ⟨c', hm, rfl⟩
    · exact .inl hm
  refine ⟨h.clock, fun c hm => ?_, fun c hm => ?_⟩ <;>
    rcases hmem c hm with hm | ⟨c', hm', rfl⟩
  exacts [h.client c hm, hc c' hm', h.session c hm, hs c' hm']

theorem Inv.apply {s : Server} (h : Inv s) (e : Event) : Inv (e.apply s) := by
  cases e with
  | tick seconds =>
    have hle : s.clock ≤ s.clock + (seconds : Int) := by omega
    exact ⟨h.clock.trans hle, fun c hc => (h.client c hc).trans hle,
      fun c hc j => (h.session c hc j).trans hle⟩
  | newConnection =>
    simp only [Event.apply]
    split
    · exact h
    · exact h.modify _ _ (fun _ _ => le_rfl) h.session
  | controlMessage i status sessNo socket => exact h.modify _ _ h.client h.session
  | startSessions i =>
    simp only [Event.apply]
    split
    · refine h.modify _ _ h.client fun c hc j => ?_
      simp only [ClientInfo.startSessions]
      split
      · exact le_rfl
      · split <;> exact h.session c hc j
    · exact ⟨h.clock, h.client, h.session⟩
  | testPacket i j =>
    refine h.modify _ _ h.client fun c hc k => ?_
    dsimp only
    split
    · exact le_rfl
    · exact h.session c hc k
  | sessionsEnded i status socket => exact h.modify _ _ h.client h.session
  | hangup i => exact h.modify _ _ (fun _ _ => h.clock) (fun _ _ _ => h.clock)

theorem Inv.events {s : Server} (h : Inv s) (events : List Event) :
    Inv (events.foldl Event.apply s) := by
  induction events generalizing s with
  | nil => exact h
  | cons e events ih => exact ih (h.apply e)

theorem Inv.loop {opt : CustomOpt} {s : Server} (h : Inv s) (step : Step) :
    Inv (loop opt s step) := by
  unfold Twamp.loop
  split
  · exact h
  split
  · exact ⟨h.clock, h.client, h.session⟩
  · rename_i hwait
    cases step with
    | ready events => exact h.events events
    | expire late =>
      have hle : s.clock ≤ s.expiry opt late := by unfold Server.expiry; omega
      have hmem : ∀ c ∈ checkConnectedClients (s.expiry opt late) (s.wait opt)
          (timeoutType (s.wait opt) opt) s.clients, c ∈ s.clients ∨ c = cleanupClient := by
        intro c hc
        obtain ⟨c', hc', rfl⟩ := List.mem_map.mp hc
        split
        · exact .inr rfl
        · exact .inl hc'
      refine ⟨h.clock.trans hle, fun c hc => ?_, fun c hc j => ?_⟩ <;>
        rcases hmem c hc with hm | rfl
      exacts [(h.client c hm).trans hle, h.clock.trans hle, (h.session c hm j).trans hle,
        h.clock.trans hle]

/-! ### The wait -/

/-- A fold whose steps each take the least of one more set. -/
theorem isLeast_foldl {α : Type*} {f : Int → α → Int} {D : α → Set Int} {l : List α}
    (hf : ∀ a ∈ l, ∀ (S : Set Int) (t : Int), IsLeast S t → IsLeast (S ∪ D a) (f t a))
    {S : Set Int} {t : Int} (h : IsLeast S t) :
    IsLeast (S ∪ {d | ∃ a ∈ l, d ∈ D a}) (l.foldl f t) := by
  induction l generalizing S t with
  | nil =>
    have hnone : {d | ∃ a ∈ ([] : List α), d ∈ D a} = ∅ := by simp
    rw [hnone, Set.union_empty]
    exact h
  | cons a l ih =>
    have hcons : S ∪ {d | ∃ b ∈ a :: l, d ∈ D b} = (S ∪ D a) ∪ {d | ∃ b ∈ l, d ∈ D b} := by
      ext d
      simp [or_assoc]
    rw [hcons]
    exact ih (fun b hb => hf b (List.mem_cons_of_mem a hb)) (hf a (List.mem_cons_self ..) S t h)

theorem isLeast_insert {S : Set Int} {t d : Int} (h : IsLeast S t) :
    IsLeast (S ∪ {d}) (if d < t then d else t) := by
  have hmin : (if d < t then d else t) = min t d := by split_ifs <;> omega
  rw [hmin]
  exact h.union isLeast_singleton

section
variable {now : Int} {opt : CustomOpt}

def sessionDelay (now : Int) (opt : CustomOpt) (s : ActiveSession) : Set Int :=
  {d | s.timestamp ≠ 0 ∧ d = since now s.timestamp opt.reflectTimeout}

def clientDelay (now : Int) (opt : CustomOpt) (c : ClientInfo) : Set Int :=
  {d | c.status ≠ .kOffline ∧
    ((∃ j ∈ List.range c.sessNo, d ∈ sessionDelay now opt (c.sessions j)) ∨
      c.timestamp ≠ 0 ∧ d = since now c.timestamp opt.serverTimeout)}

/-- The source tests the difference for zero. -/
theorem since_eq (now stamp timeout : Int) :
    (if now - stamp = 0 then timeout else now - stamp) = since now stamp timeout := by
  simp only [since, sub_eq_zero]

theorem isLeast_sessionTimeout (s : ActiveSession) {S : Set Int} {t : Int} (h : IsLeast S t) :
    IsLeast (S ∪ sessionDelay now opt s) (sessionTimeout now opt t s) := by
  unfold sessionTimeout sessionDelay
  by_cases hzero : s.timestamp = 0
  · rw [if_pos hzero]
    simpa [hzero] using h
  · rw [if_neg hzero]
    simp only [since_eq, ne_eq, hzero, not_false_eq_true, true_and]
    exact isLeast_insert h

theorem isLeast_clientTimeout {c : ClientInfo} (hc : c.timestamp ≤ now) {S : Set Int} {t : Int}
    (h : IsLeast S t) : IsLeast (S ∪ clientDelay now opt c) (clientTimeout now opt t c) := by
  unfold clientTimeout
  by_cases hoff : c.status = .kOffline
  · rw [if_pos hoff]
    simpa [clientDelay, hoff] using h
  · rw [if_neg hoff]
    have hsessions := isLeast_foldl (f := fun t j => sessionTimeout now opt t (c.sessions j))
      (l := List.range c.sessNo) (fun j _ _ _ => isLeast_sessionTimeout (c.sessions j)) h
    by_cases hzero : c.timestamp = 0
    · rw [if_pos (.inl hzero)]
      simpa [clientDelay, hoff, hzero] using hsessions
    · have hsplit : S ∪ clientDelay now opt c =
          (S ∪ {d | ∃ j ∈ List.range c.sessNo, d ∈ sessionDelay now opt (c.sessions j)}) ∪
            {since now c.timestamp opt.serverTimeout} := by
        ext d
        simp only [clientDelay, Set.mem_union, Set.mem_ofPred_eq, Set.mem_singleton_iff, ne_eq, hoff,
          hzero, not_false_eq_true, true_and, or_assoc]
      rw [if_neg (by omega), hsplit]
      simp only [since_eq]
      exact isLeast_insert hsessions

end

theorem delay_iff {opt : CustomOpt} {s : Server} {d : Int} :
    Delay opt s d ↔ d = 900 ∨ ∃ c ∈ s.clients, d ∈ clientDelay s.clock opt c := by
  constructor
  · rintro (_ | ⟨hc, hoff, hj, hzero⟩ | ⟨hc, hoff, hzero⟩)
    · exact .inl rfl
    · exact .inr ⟨_, hc, hoff, .inl ⟨_, List.mem_range.mpr hj, hzero, rfl⟩⟩
    · exact .inr ⟨_, hc, hoff, .inr ⟨hzero, rfl⟩⟩
  · rintro (rfl | ⟨c, hc, hoff, ⟨j, hj, hzero, rfl⟩ | ⟨hzero, rfl⟩⟩)
    · exact .servwait
    · exact .session hc hoff (List.mem_range.mp hj) hzero
    · exact .client hc hoff hzero

/-- The wait is the least of the delays. -/
theorem Inv.isLeast_wait {s : Server} (h : Inv s) (opt : CustomOpt) :
    IsLeast {d | Delay opt s d} (s.wait opt) := by
  have hfold := isLeast_foldl (f := clientTimeout s.clock opt) (D := clientDelay s.clock opt)
    (fun c hc _ _ => isLeast_clientTimeout (h.client c hc)) (isLeast_singleton (a := (900 : Int)))
  have hdelays : {d | Delay opt s d} =
      {900} ∪ {d | ∃ c ∈ s.clients, d ∈ clientDelay s.clock opt c} := Set.ext fun _ => delay_iff
  rw [hdelays]
  exact hfold

theorem Inv.lt_wait_iff {s : Server} (h : Inv s) (opt : CustomOpt) (a : Int) :
    (∀ d, Delay opt s d → a < d) ↔ a < s.wait opt :=
  ⟨fun hall => hall _ (h.isLeast_wait opt).1,
    fun hlt _ hd => hlt.trans_le ((h.isLeast_wait opt).2 hd)⟩

theorem Inv.le_wait_iff {s : Server} (h : Inv s) (opt : CustomOpt) (a : Int) (late : Nat) :
    (∀ d, Delay opt s d → a ≤ d + late) ↔ a ≤ s.wait opt + late :=
  ⟨fun hall => hall _ (h.isLeast_wait opt).1,
    fun hle _ hd => hle.trans (Int.add_le_add_right ((h.isLeast_wait opt).2 hd) _)⟩

theorem Inv.wait_le_iff {s : Server} (h : Inv s) (opt : CustomOpt) (a : Int) :
    (∃ d, Delay opt s d ∧ d ≤ a) ↔ s.wait opt ≤ a :=
  ⟨fun ⟨_, hd, hle⟩ => ((h.isLeast_wait opt).2 hd).trans hle,
    fun hle => ⟨_, (h.isLeast_wait opt).1, hle⟩⟩

/-! ### What an expired `select()` cleans up -/

section
variable {opt : CustomOpt} {s : Server} {late : Nat}

/-- Every connected client is expired: its timestamp is not ahead of the clock and `select()`
waited for the whole timeout. -/
theorem Inv.expired_server (h : Inv s) {c : ClientInfo} (hc : c ∈ s.clients) :
    expired (s.expiry opt late) (s.wait opt) c .server = true ↔ c.status = .kConnected := by
  have := h.client c hc
  simp only [expired]
  rw [decide_eq_true_iff]
  simp only [Server.expiry]
  refine and_iff_left_of_imp fun _ => ?_
  omega

/-- So is every testing client that has an active session. -/
theorem Inv.expired_reflector (h : Inv s) {c : ClientInfo} (hc : c ∈ s.clients) :
    expired (s.expiry opt late) (s.wait opt) c .reflector = true ↔
      c.status = .kTesting ∧ ∃ j, c.Active j := by
  simp only [expired, decide_eq_true_eq, List.any_eq_true, List.mem_range, ClientInfo.Active]
  refine and_congr_right fun _ => exists_congr fun j => and_congr_right fun _ => ?_
  refine and_iff_left_of_imp fun _ => ?_
  have := h.session c hc j
  simp only [Server.expiry]; omega

theorem loop_expire_getElem? (hrun : s.phase = .running) (hwait : 0 ≤ s.wait opt) (i : Nat) :
    (loop opt s (.expire late)).clients[i]? = s.clients[i]?.map fun c =>
      if expired (s.expiry opt late) (s.wait opt) c (timeoutType (s.wait opt) opt) then
        cleanupClient else c := by
  have hw : ¬ s.wait opt < 0 := by omega
  simp [loop, hrun, hw, checkConnectedClients]

/-- The clients a step cleans up are the expired ones. -/
theorem cleaned_iff (hrun : s.phase = .running) (hwait : 0 ≤ s.wait opt) {i : Nat} {c : ClientInfo}
    (hi : s.clients[i]? = some c) (hc : c.status ≠ .kOffline) :
    (loop opt s (.expire late)).clients[i]? = some cleanupClient ↔
      expired (s.expiry opt late) (s.wait opt) c (timeoutType (s.wait opt) opt) = true := by
  rw [loop_expire_getElem? hrun hwait, hi, Option.map_some]
  constructor
  · intro h
    by_contra hx
    rw [if_neg hx] at h
    exact hc (by rw [Option.some.inj h]; rfl)
  · intro h; rw [if_pos h]

theorem not_cleaned (h : s.phase ≠ .running ∨ s.wait opt ≤ 0) {i : Nat} {c : ClientInfo}
    (hi : s.clients[i]? = some c) (hc : c.status ≠ .kOffline) :
    (loop opt s (.expire late)).clients[i]? ≠ some cleanupClient := by
  intro hcl
  by_cases hrun : s.phase = .running
  · rcases lt_or_eq_of_le (h.resolve_left (not_not_intro hrun)) with hlt | heq
    · simp only [loop, hrun, ne_eq, not_true_eq_false, ↓reduceIte, hlt, hi] at hcl
      exact hc (by rw [Option.some.inj hcl]; rfl)
    · rw [cleaned_iff hrun heq.ge hi hc, heq] at hcl
      simp [timeoutType, expired] at hcl
  · simp only [loop, hrun, ne_eq, not_false_eq_true, ↓reduceIte, hi] at hcl
    exact hc (by rw [Option.some.inj hcl]; rfl)

theorem timeLeft_le_iff (c : ClientInfo) :
    c.timeLeft opt s.clock ≤ s.wait opt + late ↔
      serverWait opt ≤ s.expiry opt late - c.lastActive := by
  simp only [ClientInfo.timeLeft, Server.expiry]
  omega

theorem session_timeLeft_le_iff (a : ActiveSession) :
    a.timeLeft opt s.clock ≤ s.wait opt + late ↔
      reflectWait opt ≤ s.expiry opt late - a.lastActive := by
  simp only [ActiveSession.timeLeft, Server.expiry]
  omega

theorem noEarlyCleanup_iff (h : Inv s) (step : Step) :
    NoEarlyCleanup opt s step ↔ TimeLeftPasses opt s step := by
  cases step with
  | ready events => exact Iff.rfl
  | expire late =>
    simp only [TimeLeftPasses, h.lt_wait_iff, h.le_wait_iff, h.wait_le_iff, timeLeft_le_iff,
      session_timeLeft_le_iff]
    by_cases hgo : s.phase = .running ∧ 0 < s.wait opt
    · obtain ⟨hrun, hpos⟩ := hgo
      have hne : s.wait opt ≠ 0 := by omega
      simp only [NoEarlyCleanup, hrun, hpos, forall_const]
      by_cases hr : s.wait opt ≤ opt.reflectTimeout
      · have ht : timeoutType (s.wait opt) opt = .reflector := by simp [timeoutType, hne, hr]
        simp only [hr, forall_const, not_lt.mpr hr, false_implies, true_and]
        constructor
        · intro hP c hc hs hact
          obtain ⟨i, hi⟩ := List.mem_iff_getElem?.mp hc
          have hoff : c.status ≠ .kOffline := by rw [hs]; decide
          refine (hP i c hi hoff ?_).2 hs
          rw [cleaned_iff hrun hpos.le hi hoff, ht]
          exact (h.expired_reflector hc).mpr ⟨hs, hact⟩
        · intro hC i c hi hoff hcl
          have hc := List.mem_iff_getElem?.mpr ⟨i, hi⟩
          rw [cleaned_iff hrun hpos.le hi hoff, ht, h.expired_reflector hc] at hcl
          exact ⟨fun hs => absurd (hcl.1.symm.trans hs) (by decide), fun hs => hC c hc hs hcl.2⟩
      · have ht : timeoutType (s.wait opt) opt = .server := by simp [timeoutType, hne, hr]
        simp only [not_le.mp hr, forall_const, hr, false_implies, and_true]
        constructor
        · intro hP c hc hs
          obtain ⟨i, hi⟩ := List.mem_iff_getElem?.mp hc
          have hoff : c.status ≠ .kOffline := by rw [hs]; decide
          refine (hP i c hi hoff ?_).1 hs
          rw [cleaned_iff hrun hpos.le hi hoff, ht]
          exact (h.expired_server hc).mpr hs
        · intro hC i c hi hoff hcl
          have hc := List.mem_iff_getElem?.mpr ⟨i, hi⟩
          rw [cleaned_iff hrun hpos.le hi hoff, ht, h.expired_server hc] at hcl
          exact ⟨fun hs => hC c hc hs, fun hs => absurd (hcl.symm.trans hs) (by decide)⟩
    · have hgo' : s.phase ≠ .running ∨ s.wait opt ≤ 0 := by
        rw [not_and_or, not_lt] at hgo; exact hgo
      constructor
      · intro _ hrun hpos; exact absurd ⟨hrun, hpos⟩ hgo
      · intro _ i c hi hoff hcl; exact absurd hcl (not_cleaned hgo' hi hoff)

end

/-! ### Runs -/

def start (t : Nat) : Server := { clock := t }

theorem inv_start (t : Nat) : Inv (start t) := by
  have hc : ∀ c ∈ (start t).clients, c = {} := fun c hc => List.eq_of_mem_replicate hc
  refine ⟨Int.natCast_nonneg t, fun c h => ?_, fun c h j => ?_⟩ <;> rw [hc c h] <;>
    exact Int.natCast_nonneg t

/-- Over every run of the main loop: no client is cleaned up early exactly when at each expired
`select()` the time that its clients have left is at most every delay. -/
theorem run_noEarlyCleanup_iff (opt : CustomOpt) (t : Nat) (steps : List Step) :
    Along (loop opt) (NoEarlyCleanup opt) (start t) steps ↔
      Along (loop opt) (TimeLeftPasses opt) (start t) steps :=
  along_iff_of_inv (fun _ e h => noEarlyCleanup_iff h e) (fun _ e h _ => h.loop e) (inv_start t)

/-- Server timeout 100 s. A second client connects 30 s after the first: the next wait is the 30 s
the first one has been connected for, and when it expires both are cleaned up. -/
theorem not_run_noEarlyCleanup :
    ¬ Along (loop { serverTimeout := 100 }) (NoEarlyCleanup { serverTimeout := 100 }) (start 1000)
      [.ready [.newConnection], .ready [.tick 30, .newConnection], .expire 0] := by
  intro h
  have hidle := h.2.2.1 0 _ rfl (by decide) <|
    (cleaned_iff rfl (by decide) rfl (by decide)).mpr (by decide)
  exact absurd (hidle.1 rfl) (by decide)

end Dir842.Twamp
