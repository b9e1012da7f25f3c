import Dir842.Quagga.Netlink
import Mathlib.Tactic.Linarith

/-!
# Replacing a route in the kernel

What `kernel_route_rib` leaves in the kernel for an old and a new entry, and when this is what a
replacement should leave. The function asks for the metrics alone whether the new route takes the
place of the old one, so the routing tables decide where it goes wrong; and it deletes the old
route without looking at what came of the new one.
-/

namespace Dir842.Zebra

/-- The key under which the route of an entry belongs in the kernel. -/
def Rib.key (rib : Rib) : Key := ⟨tableId (rib.table.toInt % 2 ^ 32).toNat, rib.metric⟩

/-- The route of the entry is in the kernel, where the request for it has put it. -/
def Fib.Holds (fib : Fib) (rib : Rib) : Prop := ∃ r, fib rib.requestKey = some r ∧ r.rib = rib.id

/-- The old entry's route is in the kernel if the flags of its nexthops say so. -/
def Fib.Has (fib : Fib) (old : Option Rib) : Prop :=
  ∀ o, old = some o → (fib.Holds o ↔ o.sends .delRoute = true)

/-- Some route for the prefix is there. -/
def Fib.Reaches (fib : Fib) : Prop := ∃ k, fib k ≠ none

/-- One of the requests that are issued is refused. -/
def Refused (refused : Refusals) : Option Rib → Option Rib → Prop
  | none, some new => new.sends .newRoute = true ∧ refused.new ≠ none
  | some old, none => old.sends .delRoute = true ∧ refused.del ≠ none
  | some old, some new => (new.sends .newRoute = true ∧ refused.new ≠ none) ∨
      (old.metric ≠ new.metric ∧ old.sends .delRoute = true ∧ refused.del ≠ none)
  | none, none => False

/-- What a call should do, whatever else is in the kernel. -/
structure Replaced (refused : Refusals) (fib : Fib) (old new : Option Rib) (o : Outcome) :
    Prop where
  newHeld : 0 ≤ o.ret → ∀ n, new = some n → o.final fib n.key = some (n.route .newRoute)
  oldGone : 0 ≤ o.ret → ∀ r, old = some r → (∀ n, new = some n → n.requestKey ≠ r.requestKey) →
    ¬(o.final fib).Holds r
  noGap : old ≠ none → new ≠ none → fib.Reaches → ∀ fib' ∈ o.fibs, fib'.Reaches
  error : Refused refused old new → o.ret < 0

/-- The condition on the two entries and on how the kernel takes the requests. -/
def Replaceable (refused : Refusals) : Option Rib → Option Rib → Prop
  | none, some new => new.sends .newRoute = true ∧ (refused.new ≠ none ∨ 0 ≤ new.table.toInt)
  | some _, none => True
  | some old, some new =>
    if old.metric = new.metric then
      new.sends .newRoute = true ∧ (refused.new ≠ none ∨ 0 ≤ new.table.toInt ∧
        (old.sends .delRoute = true → old.requestKey = new.requestKey))
    else if new.sends .newRoute = true then
      -- where the new route is refused the old one must not be deleted
      if refused.new ≠ none then old.sends .delRoute = true → refused.del ≠ none
      else old.sends .delRoute = true ∧ refused.del ≠ none ∨ 0 ≤ new.table.toInt
    else old.sends .delRoute = true ∧ refused.del ≠ none
  | none, none => False

/-! ### Keys -/

theorem requestKey_eq_key_iff (rib : Rib) : rib.requestKey = rib.key ↔ 0 ≤ rib.table.toInt := by
  have hlt := rib.table.toInt_lt
  have hle := rib.table.le_toInt
  simp only [Rib.requestKey, Rib.key, Key.mk.injEq, and_true, tableAttrs, tableId, RT_TABLE_MAIN]
  split
  · simp only [Option.getD_none]
    constructor
    · intro h; split at h <;> split at h <;> omega
    · intro h
      have hmod : (rib.table.toInt % 2 ^ 32).toNat = (rib.table.toInt % 256).toNat := by omega
      rw [hmod]
  · simp only [Option.getD_some, true_iff]
    omega

theorem requestKey_of_nonneg {rib : Rib} (h : 0 ≤ rib.table.toInt) : rib.requestKey = rib.key :=
  (requestKey_eq_key_iff rib).mpr h

theorem requestKey_ne_of_neg {rib : Rib} (h : rib.table.toInt < 0) : rib.requestKey ≠ rib.key :=
  fun he => absurd ((requestKey_eq_key_iff rib).mp he) (not_le.mpr h)

/-- Requests for entries with different metrics never meet. -/
theorem requestKey_ne_of_metric {r s : Rib} (h : r.metric ≠ s.metric) :
    r.requestKey ≠ s.requestKey :=
  fun he => h (congrArg Key.priority he)

theorem key_ne_requestKey_of_metric {r s : Rib} (h : r.metric ≠ s.metric) : r.key ≠ s.requestKey :=
  fun he => h (congrArg Key.priority he)

/-! ### The routes with nothing but the old entry's -/

/-- A route of the old entry that is not like the new one. -/
def oldRoute (old new : Rib) : Route :=
  { old.route .newRoute with rib := old.id, mtu := some ((new.route .newRoute).mtu.getD 0 + 1) }

def onlyOld (old new : Rib) : Fib :=
  if old.sends .delRoute then Function.update (fun _ => none) old.requestKey (some (oldRoute old new))
  else fun _ => none

theorem onlyOld_of_sends {old : Rib} (h : old.sends .delRoute = true) (new : Rib) :
    onlyOld old new = Function.update (fun _ => none) old.requestKey (some (oldRoute old new)) :=
  if_pos h

theorem has_onlyOld (old new : Rib) : (onlyOld old new).Has (some old) := by
  rintro o ⟨⟩
  cases hs : old.sends .delRoute with
  | false =>
    refine iff_of_false ?_ Bool.false_ne_true
    rintro ⟨r, hr, -⟩
    rw [onlyOld, hs] at hr
    cases hr
  | true =>
    refine iff_of_true ⟨oldRoute old new, ?_, rfl⟩ rfl
    rw [onlyOld_of_sends hs, Function.update_self]

theorem onlyOld_ne_route (old new : Rib) (k : Key) :
    onlyOld old new k ≠ some (new.route .newRoute) := by
  intro h
  cases hs : old.sends .delRoute with
  | false =>
    rw [onlyOld, hs] at h
    cases h
  | true =>
    rw [onlyOld_of_sends hs] at h
    by_cases hk : k = old.requestKey
    · rw [hk, Function.update_self] at h
      have hmtu : some ((new.route .newRoute).mtu.getD 0 + 1) = (new.route .newRoute).mtu :=
        congrArg Route.mtu (Option.some.inj h)
      rw [← hmtu, Option.getD_some] at hmtu
      exact Nat.succ_ne_self _ (Option.some.inj hmtu)
    · rw [Function.update_of_ne hk] at h
      cases h

theorem reaches_update (fib : Fib) (k : Key) (r : Route) :
    Fib.Reaches (Function.update fib k (some r)) :=
  ⟨k, by rw [Function.update_self]; exact nofun⟩

theorem holds_update_of_ne {fib : Fib} {k : Key} {rib : Rib} (h : k ≠ rib.requestKey)
    (r : Option Route) : Fib.Holds (Function.update fib k r) rib ↔ fib.Holds rib := by
  rw [Fib.Holds, Fib.Holds, Function.update_of_ne h.symm]

theorem not_holds_update (fib : Fib) (rib : Rib) :
    ¬Fib.Holds (Function.update fib rib.requestKey none) rib := by
  rintro ⟨r, hr, -⟩
  rw [Function.update_self] at hr
  cases hr

section
variable {refused : Refusals} {fib : Fib} {old new : Rib}

/-- A call replaces as it should whatever else is in the kernel. -/
def Replaces (refused : Refusals) (old new : Option Rib) : Prop :=
  ∀ fib : Fib, fib.Has old →
    ∃ o, kernelRouteRib refused fib old new = some o ∧ Replaced refused fib old new o

theorem replaced_of_failed {old new : Option Rib} {o : Outcome} (h : o.ret < 0)
    (hgap : old ≠ none → new ≠ none → fib.Reaches → ∀ fib' ∈ o.fibs, fib'.Reaches) :
    Replaced refused fib old new o :=
  ⟨fun h0 => absurd h (not_lt.mpr h0), fun h0 => absurd h (not_lt.mpr h0), hgap, fun _ => h⟩

/-- A new route that is accepted is held where its table says. -/
theorem update_key_iff (fib : Fib) (hfib : fib new.key ≠ some (new.route .newRoute)) :
    Function.update fib new.requestKey (some (new.route .newRoute)) new.key =
      some (new.route .newRoute) ↔ 0 ≤ new.table.toInt := by
  rw [← requestKey_eq_key_iff]
  constructor
  · intro h
    by_contra hne
    rw [Function.update_of_ne (Ne.symm hne)] at h
    exact hfib h
  · intro h
    rw [h, Function.update_self]

theorem update_key (fib : Fib) (h : 0 ≤ new.table.toInt) :
    Function.update fib new.requestKey (some (new.route .newRoute)) new.key =
      some (new.route .newRoute) := by
  rw [(requestKey_eq_key_iff new).mpr h, Function.update_self]

theorem replaces_add_iff :
    Replaces refused none (some new) ↔ Replaceable refused none (some new) := by
  unfold Replaces Replaceable
  simp only [kernelRouteRib, Option.some.injEq, exists_eq_left']
  constructor
  · intro h
    have hr := h (fun _ => none) fun _ ho => nomatch ho
    cases hs : new.sends .newRoute with
    | false =>
      rw [talk_of_not_sends hs] at hr
      cases hr.newHeld le_rfl new rfl
    | true =>
      refine ⟨rfl, or_iff_not_imp_left.mpr fun hn => ?_⟩
      rw [talk_newRoute hs (not_not.mp hn)] at hr
      exact (update_key_iff (fun _ => none) nofun).mp (hr.newHeld le_rfl new rfl)
  · rintro ⟨hs, hr⟩ fib -
    cases hn : refused.new with
    | some e =>
      rw [talk_refused hs hn]
      exact replaced_of_failed neg_one_lt_zero fun hne => absurd rfl hne
    | none =>
      rw [talk_newRoute hs hn]
      refine ⟨?_, (fun _ _ ho => nomatch ho), fun hne => absurd rfl hne, fun h => absurd hn h.2⟩
      rintro - n ⟨⟩
      exact update_key fib (hr.resolve_left (not_not_intro hn))

theorem replaces_delete : Replaces refused (some old) none := by
  intro fib hfib
  simp only [kernelRouteRib, Option.some.injEq, exists_eq_left']
  cases hs : old.sends .delRoute with
  | false =>
    rw [talk_of_not_sends hs]
    refine ⟨(fun _ _ hn => nomatch hn), ?_, fun _ hne => absurd rfl hne, fun h => ?_⟩
    · rintro - o ⟨⟩ -
      exact fun hold => absurd ((hfib old rfl).mp hold) (by rw [hs]; exact Bool.false_ne_true)
    · exact absurd (hs.symm.trans h.1) Bool.false_ne_true
  | true =>
    cases hn : refused.del with
    | some e =>
      rw [talk_refused hs hn]
      exact replaced_of_failed neg_one_lt_zero fun _ hne => absurd rfl hne
    | none =>
      rw [talk_delRoute hs hn]
      refine ⟨(fun _ _ hn => nomatch hn), ?_, fun _ hne => absurd rfl hne, fun h => absurd hn h.2⟩
      rintro - o ⟨⟩ -
      exact not_holds_update fib old

/-- With equal metrics there is one request, and the old route goes only where it is overwritten. -/
theorem replaces_same_metric_iff (hm : old.metric = new.metric) :
    Replaces refused (some old) (some new) ↔
      new.sends .newRoute = true ∧ (refused.new ≠ none ∨ 0 ≤ new.table.toInt ∧
        (old.sends .delRoute = true → old.requestKey = new.requestKey)) := by
  unfold Replaces
  simp only [kernelRouteRib, hm, if_true, Option.some.injEq, exists_eq_left']
  constructor
  · intro h
    have hr := h (onlyOld old new) (has_onlyOld old new)
    cases hs : new.sends .newRoute with
    | false =>
      rw [talk_of_not_sends hs] at hr
      exact absurd (hr.newHeld le_rfl new rfl) (onlyOld_ne_route old new _)
    | true =>
      refine ⟨rfl, or_iff_not_imp_left.mpr fun hn => ?_⟩
      rw [talk_newRoute hs (not_not.mp hn)] at hr
      refine ⟨(update_key_iff _ (onlyOld_ne_route old new _)).mp (hr.newHeld le_rfl new rfl),
        fun hold => by_contra fun hkey => ?_⟩
      refine hr.oldGone le_rfl old rfl (by rintro n ⟨⟩; exact Ne.symm hkey) ?_
      exact (holds_update_of_ne (Ne.symm hkey) _).mpr ((has_onlyOld old new old rfl).mpr hold)
  · rintro ⟨hs, hr⟩ fib hfib
    cases hn : refused.new with
    | some e =>
      rw [talk_refused hs hn]
      refine replaced_of_failed neg_one_lt_zero fun _ _ hreach => ?_
      rintro _ (_ | ⟨_, ⟨⟩⟩)
      exact hreach
    | none =>
      obtain ⟨h0, hkey⟩ := hr.resolve_left (not_not_intro hn)
      rw [talk_newRoute hs hn]
      refine ⟨?_, ?_, fun _ _ _ => ?_, ?_⟩
      · rintro - n ⟨⟩
        exact update_key fib h0
      · rintro - o ⟨⟩ hne
        have hne := hne new rfl
        show ¬Fib.Holds (Function.update fib new.requestKey _) old
        rw [holds_update_of_ne hne, hfib old rfl]
        exact fun hold => hne (hkey hold).symm
      · rintro _ (_ | ⟨_, ⟨⟩⟩)
        exact reaches_update _ _ _
      · rintro (h | h)
        · exact absurd hn h.2
        · exact absurd hm h.1

/-! With different metrics there are two requests, and the second one does not wait for the first
to succeed. One lemma for each of the three things that can come of the first. -/

theorem talk_delRoute_ret (fib : Fib) :
    (talk refused fib .delRoute old).1 < 0 ↔ old.sends .delRoute = true ∧ refused.del ≠ none := by
  cases hs : old.sends .delRoute with
  | false => rw [talk_of_not_sends hs]; simp
  | true =>
    cases hd : refused.del with
    | some e => rw [talk_refused hs hd]; simp
    | none => rw [talk_delRoute hs hd]; simp

theorem talk_delRoute_snd (fib : Fib) : (talk refused fib .delRoute old).2 =
    if old.sends .delRoute = true ∧ refused.del = none then Function.update fib old.requestKey none
    else fib := by
  cases hs : old.sends .delRoute with
  | false => rw [talk_of_not_sends hs]; simp
  | true =>
    cases hd : refused.del with
    | some e => rw [talk_refused hs hd]; simp
    | none => rw [talk_delRoute hs hd]; simp

theorem kernelRouteRib_other_metric (hm : old.metric ≠ new.metric) (fib : Fib) :
    kernelRouteRib refused fib (some old) (some new) =
      some ⟨if old.sends .delRoute = true ∧ refused.del ≠ none then -1
          else (talk refused fib .newRoute new).1,
        [(talk refused fib .newRoute new).2,
          (talk refused (talk refused fib .newRoute new).2 .delRoute old).2]⟩ := by
  simp only [kernelRouteRib, hm, if_false, talk_delRoute_ret]

theorem replaces_of_no_request (hm : old.metric ≠ new.metric) (hs : new.sends .newRoute = false) :
    Replaces refused (some old) (some new) ↔ old.sends .delRoute = true ∧ refused.del ≠ none := by
  simp only [Replaces, kernelRouteRib_other_metric hm, talk_of_not_sends hs, Option.some.injEq,
    exists_eq_left', talk_delRoute_snd]
  constructor
  · intro h
    by_contra hd
    have hr := h (onlyOld old new) (has_onlyOld old new)
    have hnew := hr.newHeld (by rw [if_neg hd]) new rfl
    simp only [Outcome.final, List.getLastD_cons, List.getLastD_nil] at hnew
    split at hnew
    · rw [Function.update_of_ne (key_ne_requestKey_of_metric hm.symm)] at hnew
      exact onlyOld_ne_route old new _ hnew
    · exact onlyOld_ne_route old new _ hnew
  · intro hd fib hfib
    refine replaced_of_failed (by rw [if_pos hd]; exact neg_one_lt_zero) fun _ _ hreach => ?_
    have hdel : ¬ (old.sends .delRoute = true ∧ refused.del = none) := fun h => hd.2 h.2
    rw [if_neg hdel]
    rintro _ (_ | ⟨_, _ | ⟨_, ⟨⟩⟩⟩) <;> exact hreach

theorem replaces_of_refused (hm : old.metric ≠ new.metric) (hs : new.sends .newRoute = true)
    (hn : refused.new ≠ none) :
    Replaces refused (some old) (some new) ↔
      (old.sends .delRoute = true → refused.del ≠ none) := by
  obtain ⟨e, he⟩ := Option.ne_none_iff_exists'.mp hn
  simp only [Replaces, kernelRouteRib_other_metric hm, talk_refused hs he, ite_self,
    Option.some.injEq, exists_eq_left', talk_delRoute_snd]
  constructor
  · intro h hd hdel
    have hr := h (onlyOld old new) (has_onlyOld old new)
    rw [if_pos ⟨hd, hdel⟩, onlyOld_of_sends hd] at hr
    -- the old route was the only one
    obtain ⟨k, hk⟩ := hr.noGap nofun nofun (reaches_update _ _ _) _
      (List.mem_cons_of_mem _ (List.mem_cons_self ..))
    rw [Function.update_idem] at hk
    exact hk (congrFun (Function.update_eq_self old.requestKey (fun _ => none)) k)
  · intro hd fib hfib
    have hdel : ¬ (old.sends .delRoute = true ∧ refused.del = none) := fun h => hd h.1 h.2
    refine replaced_of_failed neg_one_lt_zero fun _ _ hreach => ?_
    rw [if_neg hdel]
    rintro _ (_ | ⟨_, _ | ⟨_, ⟨⟩⟩⟩) <;> exact hreach

theorem replaces_of_accepted (hm : old.metric ≠ new.metric) (hs : new.sends .newRoute = true)
    (hn : refused.new = none) :
    Replaces refused (some old) (some new) ↔
      old.sends .delRoute = true ∧ refused.del ≠ none ∨ 0 ≤ new.table.toInt := by
  have hkey := key_ne_requestKey_of_metric hm.symm
  have hrequest := requestKey_ne_of_metric hm.symm
  simp only [Replaces, kernelRouteRib_other_metric hm, talk_newRoute hs hn, Option.some.injEq,
    exists_eq_left', talk_delRoute_snd]
  constructor
  · intro h
    refine or_iff_not_imp_left.mpr fun hd => ?_
    have hr := h (onlyOld old new) (has_onlyOld old new)
    have hnew := hr.newHeld (by rw [if_neg hd]) new rfl
    simp only [Outcome.final, List.getLastD_cons, List.getLastD_nil] at hnew
    refine (update_key_iff _ (onlyOld_ne_route old new _)).mp ?_
    split at hnew
    · rwa [Function.update_of_ne hkey] at hnew
    · exact hnew
  · intro hok fib hfib
    have hreach : ∀ r : Option Route, Fib.Reaches (Function.update
        (Function.update fib new.requestKey (some (new.route .newRoute))) old.requestKey r) :=
      fun r => ⟨new.requestKey, by
        rw [Function.update_of_ne hrequest, Function.update_self]; exact nofun⟩
    by_cases hd : old.sends .delRoute = true ∧ refused.del ≠ none
    · refine replaced_of_failed (by rw [if_pos hd]; exact neg_one_lt_zero) fun _ _ _ => ?_
      have hdel : ¬ (old.sends .delRoute = true ∧ refused.del = none) := fun h => hd.2 h.2
      rw [if_neg hdel]
      rintro _ (_ | ⟨_, _ | ⟨_, ⟨⟩⟩⟩) <;> exact reaches_update _ _ _
    have h0 := hok.resolve_left hd
    rw [if_neg hd]
    refine ⟨?_, ?_, fun _ _ _ => ?_, ?_⟩
    · rintro - n ⟨⟩
      simp only [Outcome.final, List.getLastD_cons, List.getLastD_nil]
      split
      · rw [Function.update_of_ne hkey]
        exact update_key fib h0
      · exact update_key fib h0
    · rintro - o ⟨⟩ -
      simp only [Outcome.final, List.getLastD_cons, List.getLastD_nil]
      split
      · exact not_holds_update _ old
      · rename_i hdel
        rw [holds_update_of_ne hrequest, hfib old rfl]
        exact fun hold => hdel ⟨hold, not_not.mp fun hne => hd ⟨hold, hne⟩⟩
    · rintro _ (_ | ⟨_, _ | ⟨_, ⟨⟩⟩⟩)
      · exact reaches_update _ _ _
      · split
        · exact hreach none
        · exact reaches_update _ _ _
    · rintro (h | h)
      · exact absurd hn h.2
      · exact absurd h.2 hd

end

/-- A call replaces as it should, for all routes the kernel may hold besides, exactly for these
entries and answers of the kernel. -/
theorem replaces_iff (refused : Refusals) (old new : Option Rib) :
    Replaces refused old new ↔ Replaceable refused old new := by
  rcases old with _ | old <;> rcases new with _ | new
  · refine iff_of_false (fun h => ?_) id
    obtain ⟨o, ho, -⟩ := h (fun _ => none) fun _ ho => nomatch ho
    cases ho
  · exact replaces_add_iff
  · exact iff_of_true replaces_delete trivial
  · by_cases hm : old.metric = new.metric
    · rw [replaces_same_metric_iff hm, Replaceable, if_pos hm]
    rw [Replaceable, if_neg hm]
    cases hs : new.sends .newRoute with
    | false =>
      rw [replaces_of_no_request hm hs, if_neg Bool.false_ne_true]
    | true =>
      rw [if_pos rfl]
      split
      · rename_i hn; exact replaces_of_refused hm hs hn
      · rename_i hn; exact replaces_of_accepted hm hs (not_not.mp hn)

/-! An OSPF route in the main table and one with the same metric in table 100. -/

def ospfRib : Rib :=
  { id := 1, type := .ospf, distance := 110, metric := 20, table := 254
    nexthops := [{ gate := some 1, ifindex := 2, active := true, fib := true }] }

def ospfRib100 : Rib := { ospfRib with id := 2, table := 100 }

/-- The old route stays in the main table. -/
theorem not_replaces : ¬ Replaces noRefusals (some ospfRib) (some ospfRib100) := by
  have hm : ospfRib.metric = ospfRib100.metric := rfl
  rw [replaces_same_metric_iff hm]
  rintro ⟨-, hne | ⟨-, hkey⟩⟩
  · exact hne rfl
  · exact absurd (hkey (by decide)) (by decide)

end Dir842.Zebra
