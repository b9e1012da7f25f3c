import Dir842.Lib.Scan

/-!
# Connecting to a broker (`102-moeq-net-timeout.patch`)

`net__try_connect` goes through the addresses of a host. The loop around the patch is that of the
stock function: an address without a socket that can be used is skipped, and behind the loop the
lists of addresses are freed.
-/

namespace Dir842.Mosquitto

inductive Rc
  | success | connPending | connLost | errno
deriving DecidableEq

inductive Connect
  | ok | inProgress | fails
deriving DecidableEq

inductive Select
  | timeout | fails | ready
deriving DecidableEq

/-- What happens with an address. -/
inductive Attempt
  | noSocket
  /-- The family is another one, or `bind` fails. -/
  | unusable
  /-- `net__socket_nonblock` fails; it closes the socket itself. -/
  | noNonblock
  /-- The last part is `SO_ERROR`, or none when `getsockopt` fails. -/
  | tried (connect : Connect) (select : Select) (error : Option Nat)
deriving DecidableEq

/-- Sockets are named by the address they were opened for. -/
structure State where
  /-- `*sock` -/
  sock : Option Nat
  opened : List Nat
  /-- `freeaddrinfo` has been called. -/
  freed : Bool

namespace State

def socket (s : State) (i : Nat) : State := { s with sock := some i, opened := i :: s.opened }

def close (s : State) : State :=
  match s.sock with
  | none => s
  | some i => { s with opened := s.opened.erase i }

def invalidate (s : State) : State := { s with sock := none }

end State

/-- Where a round of the loop goes. -/
inductive Flow
  | next (s : State)
  | stop (s : State) (rc : Rc)
  | ret (s : State) (rc : Rc)

def round (blocking : Bool) (s : State) (i : Nat) : Attempt → Flow
  | .noSocket => .next s.invalidate
  | .unusable => .next (s.socket i).close.invalidate
  | .noNonblock =>
    let s := (s.socket i).close.invalidate
    .next (if blocking then s.close else s)
  | .tried connect select error =>
    let s := s.socket i
    if connect = .ok then .ret s .success
    else
      match select, error with
      | .timeout, _ => .ret s.close .connLost
      | .fails, _ => .ret s.close .connLost
      | .ready, none => .ret s .connLost
      -- the value of `error` is not looked at
      | .ready, some _ => .stop s .connPending

structure Result where
  rc : Rc
  state : State
  /-- How many addresses have been looked at. -/
  rounds : Nat

def loop (blocking : Bool) : State → Nat → List Attempt → Result
  | s, i, [] => ⟨.errno, { s with freed := true }, i⟩
  | s, i, a :: as =>
    match round blocking s i a with
    | .next s => loop blocking s (i + 1) as
    | .stop s rc => ⟨rc, { s with freed := true }, i + 1⟩
    | .ret s rc => ⟨rc, s, i + 1⟩

def netTryConnect (blocking : Bool) (as : List Attempt) : Result :=
  loop blocking ⟨none, [], false⟩ 0 as

/-! ### What it should do -/

namespace Attempt

/-- The address is connected, at once or within the wait. -/
def Connected : Attempt → Prop
  | tried .ok _ _ => True
  | tried .inProgress .ready error => error = some 0
  | _ => False

/-- The address is connected, or the connection is still under way without an error. -/
def Alive : Attempt → Prop
  | tried .inProgress .timeout _ => True
  | a => a.Connected

/-- No connection is tried. -/
def skipped : Attempt → Bool
  | tried .. => false
  | _ => true

end Attempt

def Rc.Fails (rc : Rc) : Prop := rc ≠ .success ∧ rc ≠ .connPending

structure Right (as : List Attempt) (r : Result) : Prop where
  alive : ¬ r.rc.Fails → ∃ i a, r.state.sock = some i ∧ as[i]? = some a ∧ a.Alive
  failed : r.rc.Fails → r.rounds = as.length ∧ ∀ a ∈ as, ¬ a.Connected
  released : r.rc.Fails → r.state.opened = [] ∧ r.state.freed = true

variable {blocking : Bool} {s : State} {as : List Attempt} {a : Attempt}

theorem opened_close_socket (s : State) (i : Nat) : (s.socket i).close.opened = s.opened :=
  List.erase_cons_head ..

theorem round_skipped (h : a.skipped = true) (i : Nat) :
    ∃ s', round blocking s i a = .next s' ∧ s'.opened = s.opened ∧ s'.freed = s.freed := by
  cases a with
  | noSocket => exact ⟨_, rfl, rfl, rfl⟩
  | unusable => exact ⟨_, rfl, opened_close_socket s i, rfl⟩
  | noNonblock =>
    refine ⟨_, rfl, ?_, ?_⟩
    · cases blocking <;> exact opened_close_socket s i
    · cases blocking <;> rfl
  | tried connect select error => cases h

theorem loop_skipped (pre : List Attempt) (h : ∀ a ∈ pre, a.skipped = true) (s : State) (i : Nat)
    (as : List Attempt) :
    ∃ s', loop blocking s i (pre ++ as) = loop blocking s' (i + pre.length) as ∧
      s'.opened = s.opened ∧ s'.freed = s.freed := by
  induction pre generalizing s i with
  | nil => exact ⟨s, rfl, rfl, rfl⟩
  | cons a pre ih =>
    rw [List.forall_mem_cons] at h
    obtain ⟨s', hround, hopened, hfreed⟩ := @round_skipped blocking s a h.1 i
    obtain ⟨s'', hloop, hopened', hfreed'⟩ := ih h.2 s' (i + 1)
    refine ⟨s'', ?_, hopened'.trans hopened, hfreed'.trans hfreed⟩
    rw [List.cons_append, loop, hround, List.length_cons, Nat.add_comm pre.length, ← Nat.add_assoc]
    exact hloop

theorem not_connected_of_skipped (h : a.skipped = true) : ¬ a.Connected := by
  cases a with
  | noSocket | unusable | noNonblock => exact id
  | tried connect select error => cases h

/-- When no address can be tried, the call fails as it should. -/
theorem right_of_skipped (h : ∀ a ∈ as, a.skipped = true) : Right as (netTryConnect blocking as) := by
  obtain ⟨s', hloop, hopened, -⟩ := @loop_skipped blocking as h ⟨none, [], false⟩ 0 []
  rw [List.append_nil, Nat.zero_add] at hloop
  have hresult : netTryConnect blocking as = ⟨.errno, { s' with freed := true }, as.length⟩ := hloop
  rw [hresult]
  exact ⟨fun hgood => absurd ⟨nofun, nofun⟩ hgood,
    fun _ => ⟨rfl, fun a ha => not_connected_of_skipped (h a ha)⟩, fun _ => ⟨hopened, rfl⟩⟩

/-- A return out of the loop that fails does not free the list. -/
theorem not_right_of_freed {r : Result} (hfails : r.rc.Fails) (hfreed : r.state.freed = false) :
    ¬ Right as r := fun h =>
  absurd (hfreed.symm.trans (h.released hfails).2) Bool.false_ne_true

theorem right_of_alive {r : Result} {i : Nat} (hrc : ¬ r.rc.Fails) (hsock : r.state.sock = some i)
    (ha : as[i]? = some a) : Right as r ↔ a.Alive := by
  constructor
  · intro h
    obtain ⟨j, b, hj, hb, halive⟩ := h.alive hrc
    obtain rfl : i = j := Option.some.inj (hsock.symm.trans hj)
    obtain rfl : a = b := Option.some.inj (ha.symm.trans hb)
    exact halive
  · intro halive
    exact ⟨fun _ => ⟨i, a, hsock, ha, halive⟩, fun h => absurd h hrc, fun h => absurd h hrc⟩

/-- The first address that is tried decides. -/
theorem right_tried_iff {pre post : List Attempt} {connect : Connect} {select : Select}
    {error : Option Nat} (h : ∀ a ∈ pre, a.skipped = true) :
    let as := pre ++ .tried connect select error :: post
    Right as (netTryConnect blocking as) ↔ (Attempt.tried connect select error).Connected := by
  intro as
  obtain ⟨s', hloop, -, hfreed⟩ := @loop_skipped blocking pre h ⟨none, [], false⟩ 0
    (.tried connect select error :: post)
  have hget : as[0 + pre.length]? = some (.tried connect select error) := by
    rw [Nat.zero_add, List.getElem?_append_right (Nat.le_refl _), Nat.sub_self,
      List.getElem?_cons_zero]
  have hsuccess : ¬ Rc.success.Fails := fun h => h.1 rfl
  have hpending : ¬ Rc.connPending.Fails := fun h => h.2 rfl
  have hlost : Rc.connLost.Fails := ⟨nofun, nofun⟩
  rw [netTryConnect, hloop, loop]
  cases connect with
  | ok => exact right_of_alive hsuccess rfl hget
  | inProgress =>
    cases select with
    | timeout => exact iff_of_false (not_right_of_freed hlost hfreed) id
    | fails => exact iff_of_false (not_right_of_freed hlost hfreed) id
    | ready =>
      cases error with
      | none => exact iff_of_false (not_right_of_freed hlost hfreed) (Option.some_ne_none 0).symm
      | some e => exact right_of_alive hpending rfl hget
  | fails =>
    cases select with
    | timeout => exact iff_of_false (not_right_of_freed hlost hfreed) id
    | fails => exact iff_of_false (not_right_of_freed hlost hfreed) id
    | ready =>
      cases error with
      | none => exact iff_of_false (not_right_of_freed hlost hfreed) id
      | some e => exact right_of_alive hpending rfl hget

/-- The call is right exactly when the first address that it tries is connected. -/
theorem netTryConnect_iff (blocking : Bool) (as : List Attempt) :
    Right as (netTryConnect blocking as) ↔ ∀ a, as.find? (!·.skipped) = some a → a.Connected := by
  by_cases h : ∀ a ∈ as, a.skipped = true
  · have hnone : as.find? (!·.skipped) = none :=
      List.find?_eq_none.mpr fun a ha hskip => by simp [h a ha] at hskip
    rw [hnone]
    exact iff_of_true (right_of_skipped h) nofun
  · obtain ⟨pre, a, post, rfl, hpre, ha⟩ := Scan.exists_first h
    have hfind : (pre ++ a :: post).find? (!·.skipped) = some a := by
      have hnone : pre.find? (!·.skipped) = none :=
        List.find?_eq_none.mpr fun b hb hskip => by simp [hpre b hb] at hskip
      rw [List.find?_append, hnone, Option.none_or, List.find?_cons_of_pos (by rw [ha]; rfl)]
    rw [hfind]
    cases a with
    | noSocket | unusable | noNonblock => cases ha
    | tried connect select error =>
      refine (right_tried_iff hpre).trans ⟨fun hc b hb => ?_, fun hc => hc _ rfl⟩
      rw [← Option.some.inj hb]
      exact hc

/-- No answer from the first address, and the second one would connect. -/
def twoAddresses : List Attempt :=
  [.tried .inProgress .timeout none, .tried .ok .ready (some 0)]

theorem not_netTryConnect : ¬ ∀ (blocking : Bool) (as : List Attempt), as ≠ [] →
    Right as (netTryConnect blocking as) := by
  intro h
  have hfails : (netTryConnect true twoAddresses).rc.Fails := ⟨nofun, nofun⟩
  have hright := h true twoAddresses (List.cons_ne_nil _ _)
  exact absurd trivial ((hright.failed hfails).2 _ (List.mem_cons_of_mem _ (List.mem_cons_self ..)))

end Dir842.Mosquitto
