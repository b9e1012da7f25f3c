import Dir842.Twamp.Server

/-!
# Timestamps of the TWAMP server: what `select()` is handed, and what Start-Sessions stamps

The first part is the bound on the timeval of the main loop. `minimum_timeout` is a minimum over
the timestamps that count (`Counts`); a bound from below on it is a bound on each of them
(`le_minimumTimeout_iff`), and the three bounds that matter are instances of this one.

The second part is `receive_start_sessions` with the entries it writes. The loop over the accepted
sessions comes first and the timestamp after it, under the index that the loop leaves.
-/

namespace Dir842.Twamp
open Run

/-! ### The timeval of the main loop -/

/-- `struct timeval`. -/
structure Timeval where
  tvSec : Int
  tvUsec : Int

/-- The `server_timeout` of the main loop. Only `tv_sec` is set before each `select()`; `tvUsec` is
what the last `select()` left there. -/
def Server.serverTimeout (opt : CustomOpt) (s : Server) (tvUsec : Int) : Timeval :=
  ⟨s.wait opt, tvUsec⟩

/-- A timeval that `select()` accepts, that lets it sleep, and for the default wait at most. -/
structure Timeval.Fit (tv : Timeval) : Prop where
  sec : 0 ≤ tv.tvSec
  usec : 0 ≤ tv.tvUsec ∧ tv.tvUsec < 1000000
  pos : 0 < tv.tvSec * 1000000 + tv.tvUsec
  le : tv.tvSec * 1000000 + tv.tvUsec ≤ 900 * 1000000

/-- The timestamps of a client that count at `now`, each with the option that stands in where no
time has passed since. -/
inductive ClientInfo.Counts (c : ClientInfo) (now : Int) (opt : CustomOpt) : Int → Int → Prop
  | session {j : Nat} (hs : c.status ≠ .kOffline) (hj : j < c.sessNo)
      (ht : (c.sessions j).timestamp ≠ 0) :
      c.Counts now opt (c.sessions j).timestamp opt.reflectTimeout
  /-- Only here is a timestamp ahead of the clock left out. -/
  | connection (hs : c.status ≠ .kOffline) (ht : c.timestamp ≠ 0) (hn : c.timestamp ≤ now) :
      c.Counts now opt c.timestamp opt.serverTimeout

/-- No timestamp is ahead of the clock, the option is set where one is of this very second, and
a fraction of a second left over does not come on top of the whole default wait. -/
structure InTime (tvUsec now : Int) (opt : CustomOpt) (clients : List ClientInfo) : Prop where
  notAhead : ∀ c ∈ clients, ∀ ts option, c.Counts now opt ts option → ts ≤ now
  option : ∀ c ∈ clients, ∀ ts option, c.Counts now opt ts option → ts = now →
    0 < option ∨ option = 0 ∧ 0 < tvUsec
  fraction : tvUsec = 0 ∨ ∃ c ∈ clients, ∃ ts option, c.Counts now opt ts option ∧
    (now - 900 < ts ∧ ts ≠ now ∨ ts = now ∧ option < 900)

/-- The wait that one timestamp asks for. -/
def elapsed (now ts option : Int) : Int := if now - ts = 0 then option else now - ts

section
variable {now : Int} {opt : CustomOpt} {lo t : Int}

theorem le_sessionTimeout_iff {s : ActiveSession} :
    lo ≤ sessionTimeout now opt t s ↔
      lo ≤ t ∧ (s.timestamp ≠ 0 → lo ≤ elapsed now s.timestamp opt.reflectTimeout) := by
  unfold sessionTimeout elapsed
  split
  · rename_i h0
    simp [h0]
  · rename_i h0
    simp only [ne_eq, h0, not_false_eq_true, forall_const]
    split <;> omega

theorem le_sessionsTimeout_iff {c : ClientInfo} :
    lo ≤ (List.range c.sessNo).foldl (fun t j => sessionTimeout now opt t (c.sessions j)) t ↔
      lo ≤ t ∧ ∀ j < c.sessNo, (c.sessions j).timestamp ≠ 0 →
        lo ≤ elapsed now (c.sessions j).timestamp opt.reflectTimeout := by
  rw [foldl_iff (p := (lo ≤ ·)) fun _ j => le_sessionTimeout_iff (s := c.sessions j)]
  simp only [List.mem_range]

theorem le_clientTimeout_iff {c : ClientInfo} :
    lo ≤ clientTimeout now opt t c ↔
      lo ≤ t ∧ ∀ ts option, c.Counts now opt ts option → lo ≤ elapsed now ts option := by
  unfold clientTimeout
  split
  · rename_i hoff
    refine (and_iff_left ?_).symm
    rintro _ _ (⟨hs⟩ | ⟨hs⟩) <;> exact absurd hoff hs
  rename_i hs
  have hsession := @le_sessionsTimeout_iff now opt lo t c
  split
  · rename_i hskip
    refine hsession.trans (and_congr_right fun _ => ⟨?_, fun h j hj ht => h _ _ (.session hs hj ht)⟩)
    rintro h _ _ (⟨_, hj, ht⟩ | ⟨_, ht, hn⟩)
    · exact h _ hj ht
    · omega
  · rename_i hcount
    rw [not_or, not_lt] at hcount
    have hmin : ∀ x w : Int, lo ≤ (if w < x then w else x) ↔ lo ≤ x ∧ lo ≤ w := by
      intro x w; split <;> omega
    refine (hmin _ _).trans ((and_congr_left' hsession).trans ?_)
    rw [and_assoc]
    refine and_congr_right fun _ => ⟨?_, fun h => ⟨fun j hj ht => h _ _ (.session hs hj ht), ?_⟩⟩
    · rintro ⟨h, hconn⟩ _ _ (⟨_, hj, ht⟩ | _)
      · exact h _ hj ht
      · exact hconn
    · exact h _ _ (.connection hs hcount.1 hcount.2)

/-- `minimum_timeout` is a minimum: a bound below the default wait bounds it exactly when it bounds
every wait a timestamp asks for. -/
theorem le_minimumTimeout_iff {clients : List ClientInfo} :
    lo ≤ minimumTimeout now opt clients ↔ lo ≤ 900 ∧
      ∀ c ∈ clients, ∀ ts option, c.Counts now opt ts option → lo ≤ elapsed now ts option :=
  foldl_iff (p := (lo ≤ ·)) (fun _ c => le_clientTimeout_iff (c := c)) _ _

theorem minimumTimeout_le {clients : List ClientInfo} : minimumTimeout now opt clients ≤ 900 :=
  (le_minimumTimeout_iff.mp le_rfl).1

end

/-! `select()` refuses a negative timeout, and nothing else ends the server. -/

theorem Event.apply_phase_ne_exited {s : Server} (h : s.phase ≠ .exited) (e : Event) :
    (e.apply s).phase ≠ .exited := by
  cases e with
  | tick _ | controlMessage _ _ _ _ | testPacket _ _ | sessionsEnded _ _ _ | hangup _ => exact h
  | newConnection => simp only [Event.apply]; split <;> exact h
  | startSessions i =>
    simp only [Event.apply]
    split
    · exact h
    · intro hp; exact Phase.noConfusion hp

theorem loop_exited_iff {opt : CustomOpt} {s : Server} (hrun : s.phase = .running) (step : Step) :
    (loop opt s step).phase = .exited ↔ s.wait opt < 0 := by
  have hs : s.phase ≠ .exited := by rw [hrun]; intro h; cases h
  have hfold : ∀ (events : List Event) {s : Server}, s.phase ≠ .exited →
      (events.foldl Event.apply s).phase ≠ .exited := by
    intro events
    induction events with
    | nil => exact id
    | cons e events ih => exact fun h => ih (e.apply_phase_ne_exited h)
  unfold loop
  rw [if_neg (not_not_intro hrun)]
  split
  · rename_i hw; exact iff_of_true rfl hw
  · rename_i hw
    cases step with
    | ready events => exact iff_of_false (hfold events hs) hw
    | expire late => exact iff_of_false hs hw

section
variable {now tvUsec ts option : Int}

/-- The least wait that leaves a positive timeval. -/
def leastWait (tvUsec : Int) : Int := if tvUsec = 0 then 1 else 0

theorem leastWait_le_elapsed_iff (hu : 0 ≤ tvUsec) :
    leastWait tvUsec ≤ elapsed now ts option ↔
      ts ≤ now ∧ (ts = now → 0 < option ∨ option = 0 ∧ 0 < tvUsec) := by
  unfold leastWait elapsed
  split <;> split <;> omega

theorem not_le_elapsed_iff :
    ¬ 900 ≤ elapsed now ts option ↔ now - 900 < ts ∧ ts ≠ now ∨ ts = now ∧ option < 900 := by
  unfold elapsed
  split <;> omega

theorem Timeval.fit_iff {sec : Int} (hu : 0 ≤ tvUsec ∧ tvUsec < 1000000) (hle : sec ≤ 900) :
    (Timeval.mk sec tvUsec).Fit ↔ leastWait tvUsec ≤ sec ∧ (tvUsec = 0 ∨ ¬ 900 ≤ sec) := by
  unfold leastWait
  constructor
  · rintro ⟨hsec, -, hpos, hmax⟩
    dsimp only at hsec hpos hmax
    split <;> omega
  · intro h
    split at h <;> refine ⟨?_, hu, ?_, ?_⟩ <;> dsimp only <;> omega

theorem fit_minimumTimeout_iff {opt : CustomOpt} {clients : List ClientInfo}
    (hu : 0 ≤ tvUsec ∧ tvUsec < 1000000) :
    (Timeval.mk (minimumTimeout now opt clients) tvUsec).Fit ↔ InTime tvUsec now opt clients := by
  have hleast : leastWait tvUsec ≤ 900 := by unfold leastWait; split <;> omega
  rw [Timeval.fit_iff hu minimumTimeout_le, le_minimumTimeout_iff, le_minimumTimeout_iff]
  simp only [hleast, le_refl, true_and, leastWait_le_elapsed_iff hu.1, not_forall,
    not_le_elapsed_iff, exists_prop]
  constructor
  · rintro ⟨h, hfr⟩
    exact ⟨fun c hc ts option hco => (h c hc ts option hco).1,
      fun c hc ts option hco => (h c hc ts option hco).2, hfr⟩
  · rintro ⟨hahead, hoption, hfr⟩
    exact ⟨fun c hc ts option hco => ⟨hahead c hc ts option hco, hoption c hc ts option hco⟩, hfr⟩

end

/-- The main loop hands `select()` a fit timeval, and is not ended by it, exactly where the stored
timestamps are in time. -/
theorem serverTimeout_fit_iff (opt : CustomOpt) (s : Server) (tvUsec : Int)
    (hrun : s.phase = .running) (hu : 0 ≤ tvUsec ∧ tvUsec < 1000000) :
    ((s.serverTimeout opt tvUsec).Fit ∧ ∀ step, (loop opt s step).phase ≠ .exited) ↔
      InTime tvUsec s.clock opt s.clients := by
  refine Iff.trans (and_iff_left_of_imp ?_) (fit_minimumTimeout_iff hu)
  intro hfit step hexit
  have hneg := (loop_exited_iff hrun step).mp hexit
  exact absurd hfit.sec (not_le.mpr hneg)

/-- A client under test, whose last packet came at 2000. -/
def testing : ClientInfo :=
  { status := .kTesting, sessNo := 1, timestamp := 900,
    sessions := fun _ => { socket := 7, timestamp := 2000, lastActive := 2000 } }

theorem serverTimeout_fit_iff_testing :
    ((Server.serverTimeout {} { clock := 2005, clients := [testing] } 0).Fit ∧
      ∀ step, (loop {} { clock := 2005, clients := [testing] } step).phase ≠ .exited) ↔
      InTime 0 2005 {} [testing] :=
  serverTimeout_fit_iff {} { clock := 2005, clients := [testing] } 0 rfl ⟨le_rfl, by omega⟩

/-- The clock is set back to 1000 after that packet. -/
theorem not_serverTimeout_fit :
    ¬ ((Server.serverTimeout {} { clock := 1000, clients := [testing] } 0).Fit ∧
      ∀ step, (loop {} { clock := 1000, clients := [testing] } step).phase ≠ .exited) := by
  rintro ⟨-, h⟩
  exact h (.expire 0) rfl

/-! ### Start-Sessions -/

/-- What the loop of `receive_start_sessions` works on, and its index. -/
structure StartLoop where
  readFds : List Int
  fdMax : Int
  i : Nat

def startLoop (c : ClientInfo) (readFds : List Int) (fdMax : Int) : StartLoop :=
  (List.range c.sessNo).foldl (fun l j =>
    { readFds := (c.sessions j).socket :: l.readFds
      fdMax := if l.fdMax < (c.sessions j).socket then (c.sessions j).socket else l.fdMax
      i := j + 1 }) { readFds, fdMax, i := 0 }

/-- A write to the client. -/
inductive Write
  | status (status : ClientStatus)
  /-- `sessions[i].timestamp`, also for an `i` outside the array. -/
  | timestamp (i : Nat) (ts : Int)

def ClientInfo.write (c : ClientInfo) : Write → ClientInfo
  | .status status => { c with status := status }
  | .timestamp i ts =>
    { c with
      sessions := fun j => if j = i then { c.sessions j with timestamp := ts } else c.sessions j }

/-- The writes of `receive_start_sessions` once Start-Ack is sent. -/
def receiveStartSessions (now : Int) (c : ClientInfo) (readFds : List Int) (fdMax : Int) :
    List Write :=
  [.status .kTesting, .timestamp (startLoop c readFds fdMax).i now]

/-- The client after Start-Sessions. -/
def ClientInfo.started (now : Int) (c : ClientInfo) (readFds : List Int) (fdMax : Int) :
    ClientInfo :=
  (receiveStartSessions now c readFds fdMax).foldl ClientInfo.write c

/-- Start-Sessions stamps the accepted sessions and them only: none of them is seen as idle before
the timeout has passed since. -/
structure StampsAccepted (now : Int) (c : ClientInfo) (readFds : List Int) (fdMax : Int) :
    Prop where
  stamped : ∀ j < c.sessNo, ((c.started now readFds fdMax).sessions j).timestamp = now
  accepted : ∀ i ts, Write.timestamp i ts ∈ receiveStartSessions now c readFds fdMax → i < c.sessNo
  inside : ∀ i ts, Write.timestamp i ts ∈ receiveStartSessions now c readFds fdMax →
    i < MAX_SESSIONS_PER_CLIENT
  notIdle : ∀ later timeout, later - now < timeout →
    expired later timeout (c.started now readFds fdMax) .reflector = false

section
variable {now fdMax : Int} {c : ClientInfo} {readFds : List Int}

/-- The loop leaves its index at `sess_no`. -/
theorem startLoop_i : (startLoop c readFds fdMax).i = c.sessNo := by
  unfold startLoop
  cases h : c.sessNo with
  | zero => rfl
  | succ n => rw [List.range_succ, List.foldl_append]; rfl

theorem mem_receiveStartSessions {i : Nat} {ts : Int} :
    Write.timestamp i ts ∈ receiveStartSessions now c readFds fdMax ↔ i = c.sessNo ∧ ts = now := by
  simp [receiveStartSessions, startLoop_i]

theorem started_timestamp (j : Nat) :
    ((c.started now readFds fdMax).sessions j).timestamp =
      if j = c.sessNo then now else (c.sessions j).timestamp := by
  simp only [ClientInfo.started, receiveStartSessions, startLoop_i, List.foldl_cons,
    List.foldl_nil, ClientInfo.write]
  split <;> rfl

/-- The step of the main loop does to the timestamps what these writes do. -/
theorem startSessions_eq_started :
    (c.startSessions now).status = (c.started now readFds fdMax).status ∧
      ∀ j, ((c.startSessions now).sessions j).timestamp =
        ((c.started now readFds fdMax).sessions j).timestamp := by
  refine ⟨rfl, fun j => ?_⟩
  rw [started_timestamp]
  by_cases hj : j = c.sessNo
  · simp [ClientInfo.startSessions, hj]
  · by_cases hlt : j < c.sessNo <;> simp [ClientInfo.startSessions, hj, hlt]

end

/-- Whatever the client, the entry that is stamped is the one after the accepted sessions. -/
theorem not_stampsAccepted (now : Int) (c : ClientInfo) (readFds : List Int) (fdMax : Int) :
    ¬ StampsAccepted now c readFds fdMax := by
  intro h
  have hlt := h.accepted c.sessNo now (mem_receiveStartSessions.mpr ⟨rfl, rfl⟩)
  exact absurd hlt (lt_irrefl _)

/-- One accepted session, never heard of, started at 5000: the check a second later takes it for
idle since the epoch. -/
theorem not_stampsAccepted_one :
    ¬ StampsAccepted 5000 { sessNo := 1, sessions := fun _ => { socket := 7 } } [] 0 := by
  intro h
  have hidle := h.notIdle 5001 900 (by omega)
  have hseen : expired 5001 900 (ClientInfo.started 5000
      { sessNo := 1, sessions := fun _ => { socket := 7 } } [] 0) .reflector = true := by decide
  exact absurd (hseen.symm.trans hidle) (by simp)

end Dir842.Twamp
