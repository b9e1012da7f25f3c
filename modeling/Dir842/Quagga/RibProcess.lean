import Dir842.Quagga.Netlink
import Dir842.Lib.Run
import Mathlib.Data.List.Nodup
import Mathlib.Tactic.Linarith

/-!
# The routes of a prefix in zebra

The entries that routing protocols add and delete (`rib_add_ipv4_multipath`, `rib_delete_ipv4`) and
`rib_process`, which selects one of them for the kernel, with the patch for the table of MPLS
routes: a route of another table stays in the kernel when one of this table is selected.

A recursive nexthop stands for what it resolves to. Whether a nexthop is active, and whether its
interface index moved, is an input of every `rib_process`. The kernel takes every request, and what
it tells zebra of its own (connected routes with their reference counts, routes deleted by others)
is not part of this.
-/

namespace Dir842.Zebra
open Run

def DISTANCE_INFINITY : UInt8 := 255

/-- `RIB_SYSTEM_ROUTE` -/
def Rib.isSystem (rib : Rib) : Bool := rib.type = .kernel ∨ rib.type = .connect

/-- A destination (`rib_dest_t`) with the kernel's routes for it. -/
structure Dest where
  routes : List Rib := []
  fib : Fib := fun _ => none
  /-- Where the next entry is allocated. -/
  next : Nat := 0
  /-- The entry whose route was left in the kernel when a route of the MPLS table was selected,
  for as long as one is; nothing in the source reads it. -/
  preserved : Option Nat := none

def Dest.modify (d : Dest) (id : Nat) (f : Rib → Rib) : Dest :=
  { d with routes := d.routes.map fun r => if r.id = id then f r else r }

/-! ### Additions and deletions -/

/-- `route_info` -/
def routeDistance : RouteType → UInt8
  | .static => 1
  | .rip | .ripng => 120
  | .ospf | .ospf6 => 110
  | .isis => 115
  | .bgp => 20
  | .babel => 95
  | _ => 0

/-- The entry that `zread_ipv4_add` fills in; a distance of 0 is one that is not given. -/
structure Announce where
  type : RouteType
  distance : UInt8 := 0
  metric : UInt32 := 0
  table : Int32
  mtu : Nat := 0
  blackhole : Bool := false
  reject : Bool := false
  fibOverride : Bool := false
  ibgp : Bool := false
  hops : List Hop

def Announce.rib (a : Announce) (id : Nat) : Rib :=
  { id, type := a.type, metric := a.metric, table := a.table, mtu := a.mtu
    distance :=
      if a.distance ≠ 0 then a.distance
      else if a.type = .bgp ∧ a.ibgp then 200
      else routeDistance a.type
    blackhole := a.blackhole, reject := a.reject, fibOverride := a.fibOverride
    nexthops := a.hops.map fun h =>
      { toHop := h, fib := a.type = .kernel ∨ a.type = .connect } }

/-- `rib_delnode` -/
def Dest.ribDelnode (d : Dest) (rib : Rib) : Dest := d.modify rib.id ({ · with removed := true })

/-- `rib_add_ipv4_multipath`: an entry of the same type and table is withdrawn. -/
def ribAddIpv4Multipath (d : Dest) (a : Announce) : Dest :=
  let rib := a.rib d.next
  let same := d.routes.find? fun r =>
    !r.removed && r.type = rib.type && r.table = rib.table && r.type ≠ .connect
  let d := { d with routes := rib :: d.routes, next := d.next + 1 }
  same.elim d d.ribDelnode

/-- The entry that `rib_delete_ipv4` looks for. -/
def Rib.isDeleted (type : RouteType) (gate : Option Nat) (ifindex : Nat) (r : Rib) : Bool :=
  !r.removed && r.type = type &&
    match r.type, r.nexthops.head? with
    | .connect, some { gate := none, ifindex := i, .. } => i = ifindex
    | _, _ => gate.all fun g => r.nexthops.any (·.gate.getD 0 = g)

def ribDeleteIpv4 (d : Dest) (type : RouteType) (gate : Option Nat) (ifindex : Nat) : Dest :=
  (d.routes.find? (·.isDeleted type gate ifindex)).elim d d.ribDelnode

/-! ### Selection -/

/-- `nexthop_active_update`, which leaves out removed entries; `CHANGED` is cleared in all. -/
def Rib.activeUpdate (active : Nat → Hop → Bool) (moved : Nat → Bool) (rib : Rib) : Rib :=
  if rib.removed then { rib with changed := false }
  else
    { rib with
      nexthops := rib.nexthops.map fun n => { n with active := active rib.id n.toHop }
      changed := moved rib.id || rib.nexthops.any fun n => n.active ≠ active rib.id n.toHop }

def ribChooseBest (current : Option Rib) (alternate : Rib) : Option Rib :=
  match current with
  | none => some alternate
  | some current =>
    if alternate.type = .connect then
      if current.type ≠ .connect ∨ alternate.metric ≤ current.metric then some alternate
      else some current
    else if current.type = .connect then some current
    else if alternate.distance < current.distance then some alternate
    else if current.distance < alternate.distance then some current
    else if alternate.metric ≤ current.metric then some alternate
    else some current

/-- An entry that takes part in the selection: not removed, with an active nexthop. -/
def Rib.eligible (r : Rib) : Bool :=
  !r.removed && r.nexthops.any (·.usable .newRoute) && r.distance ≠ DISTANCE_INFINITY

def newFib (routes : List Rib) : Option Rib :=
  ((routes.filter fun r => r.eligible && r.fibOverride).foldl ribChooseBest none).or
    ((routes.filter fun r => r.eligible && !r.fibOverride).foldl ribChooseBest none)

def oldFib (routes : List Rib) : Option Rib := routes.find? (·.selectedFib)

/-! ### The kernel -/

/-- `CUSTOM_TABLE`, for the table given to `configure`. -/
def customTable (mplsTable : Int32) (rib : Rib) : Bool := rib.table = mplsTable

def sameTable (mplsTable : Int32) (r₁ r₂ : Rib) : Bool :=
  if r₁.table = r₂.table then true
  else if r₁.table = mplsTable then false
  else if r₂.table = mplsTable then false
  else true

/-- `preserve_old`: do not allow to remove the route of the old entry with a route of the MPLS
table. -/
def preserveOld (mplsTable : Int32) (old : Option Rib) (new : Rib) : Bool :=
  old.any fun old => !sameTable mplsTable old new && customTable mplsTable new

def Rib.unsetFib (rib : Rib) : Rib :=
  { rib with nexthops := rib.nexthops.map ({ · with fib := false }) }

def ribUpdateKernel (d : Dest) (old new : Option Rib) : Dest :=
  match kernelRouteRib noRefusals d.fib old new with
  | none => d
  | some o =>
    let d := { d with fib := o.final d.fib }
    let d := new.elim d fun n => d.modify n.id fun r => (netlinkRouteMultipath .newRoute r).2
    if o.ret < 0 ∧ new.isSome then new.elim d fun n => d.modify n.id Rib.unsetFib
    else if old.map Rib.id ≠ new.map Rib.id then old.elim d fun r => d.modify r.id Rib.unsetFib
    else d

/-- `SET_FLAG` and `UNSET_FLAG (rib->status, RIB_ENTRY_SELECTED_FIB)` -/
def Rib.select (b : Bool) (rib : Rib) : Rib := { rib with selectedFib := b }

/-- In `rib_process`, what becomes of the old entry. -/
def leaveOld (d : Dest) (old new : Option Rib) : Dest :=
  match old with
  | none => d
  | some o =>
    if old.map Rib.id ≠ new.map Rib.id then
      let d := if !o.isSystem && new.all Rib.isSystem then ribUpdateKernel d old none else d
      d.modify o.id (Rib.select false)
    else d

/-- In `rib_process`, install new or replace existing FIB entry. -/
def installNew (mplsTable : Int32) (d : Dest) (old new : Option Rib) : Dest :=
  match new with
  | none => d
  | some n =>
    let d := d.modify n.id (Rib.select true)
    if n.isSystem then d
    else if preserveOld mplsTable old n then ribUpdateKernel d none new
    else ribUpdateKernel d old new

/-- In `rib_process`, make sure that the route is in the kernel. -/
def keepInstalled (d : Dest) (new : Option Rib) : Dest :=
  match new with
  | none => d
  | some n =>
    if !n.isSystem && !n.nexthops.any (·.fib) then ribUpdateKernel d none new else d

/-- `rib_process` up to the point where the kernel is up to date. -/
def updateFib (mplsTable : Int32) (d : Dest) (old new : Option Rib) : Dest :=
  if old.map Rib.id ≠ new.map Rib.id ∨ new.any (·.changed) then
    installNew mplsTable (leaveOld d old new) old new
  else keepInstalled d new

/-- A route of the MPLS table is selected, and zebra puts it into the kernel. -/
def mplsSelected (mplsTable : Int32) (new : Option Rib) : Bool :=
  new.any fun n => customTable mplsTable n && !n.isSystem

def preservedAfter (mplsTable : Int32) (d : Dest) (old new : Option Rib) : Option Nat :=
  if mplsSelected mplsTable new then
    if new.any (preserveOld mplsTable old) then (old.filter (!·.isSystem)).map Rib.id
    else d.preserved
  else none

def ribProcess (mplsTable : Int32) (d : Dest) (active : Nat → Hop → Bool) (moved : Nat → Bool) :
    Dest :=
  let d := { d with routes := d.routes.map (·.activeUpdate active moved) }
  let old := oldFib d.routes
  let new := newFib d.routes
  let d' := updateFib mplsTable d old new
  { d' with
    routes := d'.routes.filter (!·.removed)
    preserved := preservedAfter mplsTable d old new }

inductive Event
  | add (a : Announce)
  | delete (type : RouteType) (gate : Option Nat) (ifindex : Nat)
  | process (active : Nat → Hop → Bool) (moved : Nat → Bool)

def Dest.step (mplsTable : Int32) (d : Dest) : Event → Dest
  | .add a => ribAddIpv4Multipath d a
  | .delete type gate ifindex => ribDeleteIpv4 d type gate ifindex
  | .process active moved => ribProcess mplsTable d active moved

/-! ### What belongs into the kernel -/

/-- The entry's route is there. -/
def Owned (fib : Fib) (id : Nat) (k : Key) : Prop := ∃ r, fib k = some r ∧ r.rib = id

/-- Selected for the kernel, or deliberately preserved. -/
def Dest.InKernel (d : Dest) (r : Rib) : Prop :=
  r.selectedFib = true ∧ r.isSystem = false ∨ d.preserved = some r.id

/-- The routes in the kernel are those of the entries that belong there. -/
def Dest.Exact (d : Dest) : Prop :=
  ∀ id k, Owned d.fib id k ↔ ∃ r ∈ d.routes, r.id = id ∧ r.requestKey = k ∧ d.InKernel r

/-- What a `rib_process` from `old` to `new` needs so that no route stays behind. -/
structure Clean (mplsTable : Int32) (d : Dest) (old new : Option Rib) : Prop where
  /-- With a route of the MPLS table selected, the preserved entry is not being removed (or the
  new route takes its key). -/
  preserved : ∀ n, new = some n → mplsSelected mplsTable new = true → ∀ r ∈ d.routes,
    preservedAfter mplsTable d old new = some r.id → (r.removed = true ↔ r.requestKey = n.requestKey)
  /-- With another one selected, the preserved entry is it (or the new route takes its key). -/
  left : mplsSelected mplsTable new = false → ∀ r ∈ d.routes, d.preserved = some r.id →
    ∃ n, new = some n ∧ n.isSystem = false ∧ (r.id = n.id ∨ r.requestKey = n.requestKey)
  /-- With the same metric the table does not change. -/
  table : ∀ o n, old = some o → new = some n → o.id ≠ n.id → o.isSystem = false →
    n.isSystem = false → mplsSelected mplsTable new = false → o.metric = n.metric →
    o.requestKey = n.requestKey

section
variable {fib : Fib} {id : Nat} {k k' : Key} {r : Route}

theorem owned_update : Owned (Function.update fib k (some r)) id k' ↔
    k' = k ∧ r.rib = id ∨ k' ≠ k ∧ Owned fib id k' := by
  unfold Owned
  by_cases hk : k' = k
  · subst hk
    simp [Function.update_self]
  · simp [hk]

theorem owned_erase : Owned (Function.update fib k none) id k' ↔ k' ≠ k ∧ Owned fib id k' := by
  unfold Owned
  by_cases hk : k' = k
  · subst hk
    simp [Function.update_self]
  · simp [hk]

end

/-! ### Flags of nexthops

`Rib.core` is an entry without the flags of its nexthops, which `rib_update_kernel` changes. -/

def Rib.core (r : Rib) : Rib := { r with nexthops := [], changed := false }

section
variable {r : Rib} {d : Dest}

@[simp] theorem core_id : r.core.id = r.id := rfl
@[simp] theorem core_removed : r.core.removed = r.removed := rfl
@[simp] theorem core_selectedFib : r.core.selectedFib = r.selectedFib := rfl
@[simp] theorem core_isSystem : r.core.isSystem = r.isSystem := rfl
@[simp] theorem core_requestKey : r.core.requestKey = r.requestKey := rfl

@[simp] theorem core_select (b : Bool) : (r.select b).core = r.core.select b := rfl
@[simp] theorem select_id (b : Bool) : (r.select b).id = r.id := rfl

theorem core_netlinkRouteMultipath (cmd : Cmd) : (netlinkRouteMultipath cmd r).2.core = r.core := by
  unfold netlinkRouteMultipath
  split <;> cases cmd <;> rfl

theorem core_modify {id : Nat} {f : Rib → Rib} (hf : ∀ r, (f r).core = r.core) :
    (d.modify id f).routes.map Rib.core = d.routes.map Rib.core := by
  simp only [Dest.modify, List.map_map]
  refine List.map_congr_left fun r _ => ?_
  rw [Function.comp_apply]
  split
  · exact hf r
  · rfl

theorem core_ribUpdateKernel (old new : Option Rib) :
    (ribUpdateKernel d old new).routes.map Rib.core = d.routes.map Rib.core := by
  have hclear : ∀ (d : Dest) (o : Option Rib),
      (o.elim d fun r => d.modify r.id Rib.unsetFib).routes.map Rib.core =
        d.routes.map Rib.core := by
    rintro d (_ | o)
    · rfl
    · exact core_modify fun _ => rfl
  unfold ribUpdateKernel
  split
  · rfl
  · rename_i o _
    have hset : (Option.elim new { d with fib := o.final d.fib } fun n =>
        Dest.modify { d with fib := o.final d.fib } n.id fun r =>
          (netlinkRouteMultipath .newRoute r).2).routes.map Rib.core = d.routes.map Rib.core := by
      cases new with
      | none => rfl
      | some n => exact core_modify fun _ => core_netlinkRouteMultipath _
    dsimp only
    split
    · rw [hclear, hset]
    · split
      · rw [hclear, hset]
      · exact hset

theorem any_setFib {p : Nexthop → Bool} (hp : ∀ n, p n = true → n.recursive = false) (k : Nat)
    {ns : List Nexthop} (h : ns.any p = true) :
    (setFib p (k + 1) ns).any (·.usable .delRoute) = true := by
  induction ns with
  | nil => cases h
  | cons n ns ih =>
    unfold setFib
    split
    · rename_i hn
      simp [Nexthop.usable, hp n hn]
    · rename_i hn
      rw [List.any_cons, Bool.or_eq_true] at h ⊢
      exact .inr (ih (h.resolve_left hn))

/-- What is installed can be deleted. -/
theorem sends_delRoute (h : r.sends .newRoute = true) :
    (netlinkRouteMultipath .newRoute r).2.sends .delRoute = true := by
  unfold netlinkRouteMultipath Rib.sends at *
  cases hd : r.discard with
  | true =>
    have hd' : ∀ ns, Rib.discard { r with nexthops := ns } = true := fun _ => hd
    simp [hd']
  | false =>
    rw [hd, Bool.false_or] at h
    obtain ⟨k, hk⟩ := Nat.exists_eq_succ_of_ne_zero (Nat.ne_of_gt (@hopCount_pos .newRoute r))
    have hany := any_setFib (p := (·.usable .newRoute)) (fun n hn => by
      simp [Nexthop.usable] at hn; exact hn.1) k h
    simp only [Bool.false_eq_true, if_false, hk, Bool.or_eq_true]
    exact .inr hany

end

/-! ### One update of the kernel -/

section
variable {fib : Fib} {d : Dest} {o n : Rib}

def Fib.put (fib : Fib) (n : Rib) : Fib :=
  Function.update fib n.requestKey (some (n.route .newRoute))

theorem talk_noRefusals (cmd : Cmd) (r : Rib) : (talk noRefusals fib cmd r).1 = 0 := by
  cases hs : r.sends cmd with
  | false => rw [talk_of_not_sends hs]
  | true =>
    cases cmd with
    | newRoute => rw [talk_newRoute hs rfl]
    | delRoute => rw [talk_delRoute hs rfl]

theorem kernelRouteRib_ret {old new : Option Rib} {out : Outcome}
    (h : kernelRouteRib noRefusals fib old new = some out) : out.ret = 0 := by
  rcases old with _ | o <;> rcases new with _ | n
  · cases h
  · cases h; exact talk_noRefusals _ _
  · cases h; exact talk_noRefusals _ _
  · simp only [kernelRouteRib] at h
    split at h <;> cases h
    · exact talk_noRefusals _ _
    · simp only [talk_noRefusals, lt_irrefl, if_false]

theorem ribUpdateKernel_eq {old new : Option Rib} {out : Outcome}
    (h : kernelRouteRib noRefusals d.fib old new = some out) :
    (ribUpdateKernel d old new).fib = out.final d.fib := by
  unfold ribUpdateKernel
  rw [h]
  have hlt : ¬ (out.ret < 0 ∧ new.isSome) := fun hr => by
    rw [kernelRouteRib_ret h] at hr; exact absurd hr.1 (lt_irrefl 0)
  dsimp only
  rw [if_neg hlt]
  cases new <;> cases old <;> dsimp only [Option.elim] <;> split <;> rfl

theorem talk_newRoute_snd (hs : n.sends .newRoute = true) :
    (talk noRefusals fib .newRoute n).2 = fib.put n := by
  rw [talk_newRoute hs rfl]
  rfl

theorem talk_delRoute_snd_of_sends (hs : o.sends .delRoute = true) :
    (talk noRefusals fib .delRoute o).2 = Function.update fib o.requestKey none := by
  rw [talk_delRoute hs rfl]

theorem fib_add (hs : n.sends .newRoute = true) :
    (ribUpdateKernel d none (some n)).fib = d.fib.put n := by
  rw [ribUpdateKernel_eq rfl]
  exact talk_newRoute_snd hs

theorem fib_delete (hs : o.sends .delRoute = true) :
    (ribUpdateKernel d (some o) none).fib = Function.update d.fib o.requestKey none := by
  rw [ribUpdateKernel_eq rfl]
  exact talk_delRoute_snd_of_sends hs

theorem fib_replace (hs : n.sends .newRoute = true) (hm : o.metric = n.metric) :
    (ribUpdateKernel d (some o) (some n)).fib = d.fib.put n := by
  rw [ribUpdateKernel_eq (by simp only [kernelRouteRib, hm, if_true]; rfl)]
  exact talk_newRoute_snd hs

theorem fib_add_delete (hs : n.sends .newRoute = true) (hm : o.metric ≠ n.metric) :
    (ribUpdateKernel d (some o) (some n)).fib =
      if o.sends .delRoute = true then Function.update (d.fib.put n) o.requestKey none
      else d.fib.put n := by
  rw [ribUpdateKernel_eq (by simp only [kernelRouteRib, hm, if_false]; rfl)]
  simp only [Outcome.final, List.getLastD_cons, List.getLastD_nil, talk_newRoute_snd hs]
  split
  · rename_i hd; exact talk_delRoute_snd_of_sends hd
  · rename_i hd; rw [talk_of_not_sends (Bool.eq_false_iff.mpr hd)]

theorem mem_modify {id : Nat} {f : Rib → Rib} {r : Rib} :
    r ∈ (d.modify id f).routes ↔ ∃ s ∈ d.routes, r = if s.id = id then f s else s := by
  simp only [Dest.modify, List.mem_map, eq_comm]

/-- The entry that is installed can be deleted later. -/
theorem sends_ribUpdateKernel {old : Option Rib}
    (hs : ∀ r ∈ d.routes, r.id = n.id → r.sends .newRoute = true) :
    ∀ r ∈ (ribUpdateKernel d old (some n)).routes, r.id = n.id → r.sends .delRoute = true := by
  have hnew : ∀ fib, ∀ r ∈ (Dest.modify { d with fib := fib } n.id fun r =>
      (netlinkRouteMultipath .newRoute r).2).routes, r.id = n.id → r.sends .delRoute = true := by
    intro fib r hr hid
    obtain ⟨s, hs', rfl⟩ := mem_modify.mp hr
    split at hid
    · rename_i h
      rw [if_pos h]
      exact sends_delRoute (hs s hs' h)
    · rename_i h; exact absurd hid h
  obtain ⟨out, hout⟩ : ∃ out, kernelRouteRib noRefusals d.fib old (some n) = some out := by
    rcases old with _ | o
    · exact ⟨_, rfl⟩
    · simp only [kernelRouteRib]; split <;> exact ⟨_, rfl⟩
  have hlt : ¬ (out.ret < 0 ∧ (some n).isSome) := fun hr => by
    rw [kernelRouteRib_ret hout] at hr; exact absurd hr.1 (lt_irrefl 0)
  unfold ribUpdateKernel
  rw [hout]
  dsimp only [Option.elim]
  rw [if_neg hlt]
  intro r hr hid
  split at hr
  · rename_i hne
    rcases old with _ | o
    · exact hnew _ r hr hid
    · obtain ⟨s, hs', rfl⟩ := mem_modify.mp hr
      split at hid
      · rename_i h
        exact absurd (congrArg some (h.symm.trans hid)) hne
      · rename_i h
        rw [if_neg h]
        exact hnew _ s hs' hid
  · exact hnew _ r hr hid

end

/-! ### From the old to the new entry -/

/-- `o` is the selected entry of the list and `n` one that may follow it. -/
structure Selection (d : Dest) (o n : Option Rib) : Prop where
  ids : ∀ r ∈ d.routes, ∀ s ∈ d.routes, r.id = s.id → r = s
  old : ∀ r ∈ d.routes, r.selectedFib = true ↔ o.map Rib.id = some r.id
  oldMem : ∀ r, o = some r → r ∈ d.routes
  newMem : ∀ r, n = some r → r ∈ d.routes
  newSends : ∀ r, n = some r → r.sends .newRoute = true
  newThere : ∀ r, n = some r → r.removed = false
  oldSends : ∀ r, o = some r → r.isSystem = false → r.sends .delRoute = true

section
variable {mplsTable : Int32} {d : Dest} {o n : Option Rib} {l m : Rib}

theorem core_modify_select (id : Nat) (b : Bool) : (d.modify id (Rib.select b)).routes.map Rib.core =
    (d.routes.map Rib.core).map fun r => if r.id = id then r.select b else r := by
  simp only [Dest.modify, List.map_map]
  refine List.map_congr_left fun r _ => ?_
  rw [Function.comp_apply, Function.comp_apply, core_id]
  split <;> rfl

theorem core_leaveOld : (leaveOld d o n).routes.map Rib.core =
    (d.routes.map Rib.core).map fun r =>
      if o.map Rib.id = some r.id ∧ o.map Rib.id ≠ n.map Rib.id then r.select false else r := by
  rcases o with _ | l
  · simp [leaveOld]
  · unfold leaveOld
    dsimp only
    split
    · rename_i hne
      rw [core_modify_select]
      have hcore : (if (!l.isSystem && n.all Rib.isSystem) = true then
          ribUpdateKernel d (some l) none else d).routes.map Rib.core = d.routes.map Rib.core := by
        split
        · exact core_ribUpdateKernel _ _
        · rfl
      rw [hcore]
      refine List.map_congr_left fun r _ => if_congr ?_ rfl rfl
      rw [and_iff_left hne, Option.map_some, Option.some.injEq, eq_comm]
    · rename_i heq
      rw [not_not] at heq
      simp [heq]

theorem core_installNew : (installNew mplsTable d o n).routes.map Rib.core =
    (d.routes.map Rib.core).map fun r =>
      if n.map Rib.id = some r.id then r.select true else r := by
  rcases n with _ | m
  · simp [installNew]
  · have hsel : (d.modify m.id (Rib.select true)).routes.map Rib.core =
        (d.routes.map Rib.core).map fun r =>
          if (some m).map Rib.id = some r.id then r.select true else r := by
      rw [core_modify_select]
      refine List.map_congr_left fun r _ => if_congr ?_ rfl rfl
      rw [Option.map_some, Option.some.injEq, eq_comm]
    unfold installNew
    dsimp only
    split
    · exact hsel
    · split <;> exact (core_ribUpdateKernel _ _).trans hsel

theorem core_keepInstalled : (keepInstalled d n).routes.map Rib.core = d.routes.map Rib.core := by
  rcases n with _ | m
  · rfl
  · unfold keepInstalled
    dsimp only
    split
    · exact core_ribUpdateKernel _ _
    · rfl

theorem select_self {r : Rib} {b : Bool} (h : r.selectedFib = b) : r.select b = r := by
  subst h
  rfl

/-- Only the selection changes in the entries. -/
theorem core_updateFib (h : Selection d o n) :
    (updateFib mplsTable d o n).routes.map Rib.core =
      d.routes.map fun r => r.core.select (n.map Rib.id = some r.id) := by
  have hold : ∀ r ∈ d.routes, r.core.selectedFib = decide (o.map Rib.id = some r.id) := by
    intro r hr
    rw [Bool.eq_iff_iff, decide_eq_true_iff]
    exact h.old r hr
  unfold updateFib
  split
  · rw [core_installNew, core_leaveOld, List.map_map, List.map_map]
    refine List.map_congr_left fun r hr => ?_
    rw [Function.comp_apply, Function.comp_apply]
    by_cases hn : n.map Rib.id = some r.id
    · have hne : ¬ (o.map Rib.id = some r.core.id ∧ o.map Rib.id ≠ n.map Rib.id) := by
        rintro ⟨h₁, h₂⟩
        exact h₂ (h₁.trans hn.symm)
      have hn' : n.map Rib.id = some r.core.id := hn
      rw [if_neg hne, if_pos hn', decide_eq_true hn]
    · rw [decide_eq_false hn]
      by_cases ho : o.map Rib.id = some r.id
      · have hne : o.map Rib.id = some r.core.id ∧ o.map Rib.id ≠ n.map Rib.id :=
          ⟨ho, fun he => hn (he.symm.trans ho)⟩
        rw [if_pos hne]
        exact if_neg hn
      · have hne : ¬ (o.map Rib.id = some r.core.id ∧ o.map Rib.id ≠ n.map Rib.id) := fun h => ho h.1
        rw [if_neg hne, select_self ((hold r hr).trans (decide_eq_false ho))]
        exact if_neg hn
  · rename_i hsame
    rw [not_or, not_not] at hsame
    rw [core_keepInstalled]
    refine List.map_congr_left fun r hr => ?_
    rw [← hsame.1, select_self (hold r hr)]

/-! What the update does to the kernel, by the new entry. -/

theorem fib_leaveOld (h : Selection d o n) : (leaveOld d o n).fib =
    match o with
    | some l =>
      if l.isSystem = false ∧ n.all Rib.isSystem = true then
        Function.update d.fib l.requestKey none
      else d.fib
    | none => d.fib := by
  rcases o with _ | l
  · rfl
  · unfold leaveOld
    dsimp only
    split
    · cases hl : l.isSystem with
      | true => simp [Dest.modify]
      | false =>
        cases hn : n.all Rib.isSystem with
        | true => exact fib_delete (h.oldSends l rfl hl)
        | false => simp [Dest.modify]
    · rename_i heq
      rw [not_not] at heq
      have hno : ¬ (l.isSystem = false ∧ n.all Rib.isSystem = true) := by
        rintro ⟨hl, hn⟩
        rcases n with _ | m
        · cases heq
        · rw [h.ids l (h.oldMem l rfl) m (h.newMem m rfl) (Option.some.inj heq)] at hl
          rw [Option.all_some, hl] at hn
          cases hn
      rw [if_neg hno]

theorem fib_installNew (hs : m.sends .newRoute = true) (hm : m.isSystem = false) :
    (installNew mplsTable d o (some m)).fib =
      match o with
      | some l =>
        if preserveOld mplsTable (some l) m = false ∧ l.metric ≠ m.metric ∧
            l.sends .delRoute = true then
          Function.update (d.fib.put m) l.requestKey none
        else d.fib.put m
      | none => d.fib.put m := by
  unfold installNew
  simp only [hm, Bool.false_eq_true, if_false]
  rcases o with _ | l
  · exact fib_add hs
  · by_cases hp : preserveOld mplsTable (some l) m = true
    · rw [if_pos hp]
      refine (fib_add hs).trans (if_neg ?_).symm
      rintro ⟨h, -⟩
      exact absurd (hp.symm.trans h) (by simp)
    · rw [if_neg hp]
      by_cases hmet : l.metric = m.metric
      · exact (fib_replace hs hmet).trans (if_neg fun h => h.2.1 hmet).symm
      · rw [fib_add_delete hs hmet]
        exact if_congr ⟨fun h => ⟨Bool.eq_false_iff.mpr hp, hmet, h⟩, fun h => h.2.2⟩ rfl rfl

end

/-! ### Who owns a route after the update -/

/-- What the entries were, besides their routes. -/
structure Dest.Kept (mplsTable : Int32) (d : Dest) (o : Option Rib) : Prop where
  exact : d.Exact
  old : ∀ i, d.preserved = some i → ∃ l, o = some l ∧ customTable mplsTable l = true ∧
    l.isSystem = false
  preserved : ∀ r ∈ d.routes, d.preserved = some r.id → customTable mplsTable r = false

section
variable {mplsTable : Int32} {d : Dest} {o n : Option Rib} {l m r s : Rib}

theorem Dest.Exact.owned (h : d.Exact) (hr : r ∈ d.routes) (hk : d.InKernel r) :
    Owned d.fib r.id r.requestKey :=
  (h _ _).mpr ⟨r, hr, rfl, rfl, hk⟩

/-- Two entries with routes have different keys. -/
theorem Dest.Exact.id_eq (h : d.Exact) (hr : r ∈ d.routes) (hs : s ∈ d.routes)
    (hkr : d.InKernel r) (hks : d.InKernel s) (he : r.requestKey = s.requestKey) : r.id = s.id := by
  obtain ⟨v, hv, hvr⟩ := h.owned hr hkr
  obtain ⟨w, hw, hws⟩ := h.owned hs hks
  rw [he, hw, Option.some.injEq] at hv
  rw [← hvr, ← hws, hv]

theorem Selection.old_eq (h : Selection d o n) (hr : r ∈ d.routes) (hs : r.selectedFib = true) :
    o = some r := by
  have hid := (h.old r hr).mp hs
  rcases o with _ | l
  · cases hid
  · rw [h.ids l (h.oldMem l rfl) r hr (Option.some.inj hid)]

theorem Selection.inKernel_old (h : Selection d (some l) n) (hl : l.isSystem = false) :
    d.InKernel l :=
  .inl ⟨(h.old l (h.oldMem l rfl)).mpr rfl, hl⟩

/-- The preserved entry shares no key with the old one. -/
theorem Dest.Kept.key_ne (hk : d.Kept mplsTable (some l)) (h : Selection d (some l) n)
    (hr : r ∈ d.routes) (hp : d.preserved = some r.id) (hl : l.isSystem = false) :
    r.requestKey ≠ l.requestKey := by
  intro he
  have hid := hk.exact.id_eq hr (h.oldMem l rfl) (.inr hp) (h.inKernel_old hl) he
  have hrl := h.ids r hr l (h.oldMem l rfl) hid
  obtain ⟨l', hl', hcustom, -⟩ := hk.old _ hp
  rw [← Option.some.inj hl', ← hrl, hk.preserved r hr hp] at hcustom
  cases hcustom

/-- The kernel has the routes of the old and of the preserved entry. -/
theorem Dest.Kept.owned_iff (hk : d.Kept mplsTable o) (h : Selection d o n) (id : Nat) (k : Key) :
    Owned d.fib id k ↔
      (∃ l, o = some l ∧ l.isSystem = false ∧ l.id = id ∧ l.requestKey = k) ∨
      ∃ r ∈ d.routes, d.preserved = some r.id ∧ r.id = id ∧ r.requestKey = k := by
  rw [hk.exact id k]
  constructor
  · rintro ⟨r, hr, hid, hkey, ⟨hsel, hsys⟩ | hp⟩
    · exact .inl ⟨r, h.old_eq hr hsel, hsys, hid, hkey⟩
    · exact .inr ⟨r, hr, hp, hid, hkey⟩
  · rintro (⟨l, rfl, hsys, hid, hkey⟩ | ⟨r, hr, hp, hid, hkey⟩)
    · exact ⟨l, h.oldMem l rfl, hid, hkey, h.inKernel_old hsys⟩
    · exact ⟨r, hr, hid, hkey, .inr hp⟩

/-- With no entry of zebra's own selected, the kernel has no route. -/
theorem Dest.Kept.not_owned (hk : d.Kept mplsTable o) (h : Selection d o n)
    (ho : o.all Rib.isSystem = true) (id : Nat) (k : Key) : ¬ Owned d.fib id k := by
  rw [hk.owned_iff h]
  rintro (⟨l, rfl, hsys, -⟩ | ⟨r, -, hp, -⟩)
  · rw [Option.all_some, hsys] at ho
    cases ho
  · obtain ⟨l, rfl, -, hsys⟩ := hk.old _ hp
    rw [Option.all_some, hsys] at ho
    cases ho

/-- The route that goes because its metric is not that of the new one. -/
def Erased (mplsTable : Int32) (o : Option Rib) (m : Rib) (k : Key) : Prop :=
  ∃ l, o = some l ∧ l.isSystem = false ∧ preserveOld mplsTable o m = false ∧
    l.metric ≠ m.metric ∧ k = l.requestKey

theorem owned_put (id : Nat) (k : Key) : Owned (d.fib.put m) id k ↔
    k = m.requestKey ∧ id = m.id ∨ k ≠ m.requestKey ∧ Owned d.fib id k := by
  unfold Fib.put
  rw [owned_update]
  have hid : (m.route .newRoute).rib = m.id := by
    unfold Rib.route
    split <;> rfl
  rw [hid, eq_comm (a := m.id)]

theorem fib_leaveOld_some (h : Selection d o (some m)) (hm : m.isSystem = false) :
    (leaveOld d o (some m)).fib = d.fib := by
  rw [fib_leaveOld h]
  rcases o with _ | l
  · rfl
  · simp [hm]

theorem owned_installNew (h : Selection d o (some m)) (hk : d.Kept mplsTable o)
    (hm : m.isSystem = false) (id : Nat) (k : Key) :
    Owned (installNew mplsTable (leaveOld d o (some m)) o (some m)).fib id k ↔
      k = m.requestKey ∧ id = m.id ∨
      k ≠ m.requestKey ∧ Owned d.fib id k ∧ ¬ Erased mplsTable o m k := by
  have hs := h.newSends m rfl
  rw [fib_installNew hs hm]
  have hput : (leaveOld d o (some m)).fib.put m = d.fib.put m := by
    rw [fib_leaveOld_some h hm]
  rcases o with _ | l
  · have hno : ¬ Erased mplsTable none m k := by rintro ⟨l, ⟨⟩, -⟩
    dsimp only
    rw [hput, owned_put, and_iff_left hno]
  · dsimp only
    rw [hput]
    split
    · rename_i hcond
      rw [owned_erase, owned_put]
      have hkey : l.requestKey ≠ m.requestKey := fun he => hcond.2.1 (congrArg Key.priority he)
      constructor
      · rintro ⟨hne, hput | hold⟩
        · exact .inl hput
        · refine .inr ⟨hold.1, hold.2, ?_⟩
          rintro ⟨l', hl', -, -, -, he⟩
          rw [← Option.some.inj hl'] at he
          exact hne he
      · rintro (hput | ⟨hne, hold, herased⟩)
        · refine ⟨?_, .inl hput⟩
          rw [hput.1]
          exact hkey.symm
        · refine ⟨fun he => ?_, .inr ⟨hne, hold⟩⟩
          cases hl : l.isSystem with
          | true => exact hk.not_owned h hl id k hold
          | false => exact herased ⟨l, rfl, hl, hcond.1, hcond.2.1, he⟩
    · rename_i hcond
      rw [owned_put]
      have hno : ¬ Erased mplsTable (some l) m k := by
        rintro ⟨l', hl', hsys, hp, hmet, -⟩
        rw [← Option.some.inj hl'] at hsys hmet
        exact hcond ⟨hp, hmet, h.oldSends l rfl hsys⟩
      rw [and_iff_left hno]

theorem owned_keepInstalled (h : Selection d (some l) (some m)) (hk : d.Kept mplsTable (some l))
    (hm : m.isSystem = false) (hlm : l = m) (id : Nat) (k : Key) :
    Owned (keepInstalled d (some m)).fib id k ↔ k = m.requestKey ∧ id = m.id ∨
      k ≠ m.requestKey ∧ Owned d.fib id k := by
  unfold keepInstalled
  dsimp only
  split
  · rw [fib_add (h.newSends m rfl), owned_put]
  · subst hlm
    obtain ⟨v, hv, hvid⟩ := hk.exact.owned (h.oldMem l rfl) (h.inKernel_old hm)
    by_cases hkey : k = l.requestKey
    · subst hkey
      have hown : Owned d.fib id l.requestKey ↔ id = l.id := by
        unfold Owned
        simp only [hv, Option.some.injEq, exists_eq_left', hvid]
        exact eq_comm
      simp [hown]
    · simp [hkey]

theorem owned_updateFib (h : Selection d o (some m)) (hk : d.Kept mplsTable o)
    (hm : m.isSystem = false) (id : Nat) (k : Key) :
    Owned (updateFib mplsTable d o (some m)).fib id k ↔ k = m.requestKey ∧ id = m.id ∨
      k ≠ m.requestKey ∧ Owned d.fib id k ∧ ¬ Erased mplsTable o m k := by
  unfold updateFib
  split
  · exact owned_installNew h hk hm id k
  · rename_i hsame
    rw [not_or, not_not] at hsame
    rcases o with _ | l
    · cases hsame.1
    · have hlm : l = m :=
        h.ids l (h.oldMem l rfl) m (h.newMem m rfl) (Option.some.inj hsame.1)
      have hno : ¬ Erased mplsTable (some l) m k := by
        rintro ⟨l', hl', -, -, hmet, -⟩
        exact hmet (congrArg Rib.metric ((Option.some.inj hl').symm.trans hlm))
      rw [owned_keepInstalled h hk hm hlm, and_iff_left hno]

/-- Where the new entry is not one of zebra's own, the old one's route goes. -/
theorem owned_updateFib_system (h : Selection d o n) (hk : d.Kept mplsTable o)
    (hn : n.all Rib.isSystem = true) (id : Nat) (k : Key) :
    Owned (updateFib mplsTable d o n).fib id k ↔
      ∃ r ∈ d.routes, d.preserved = some r.id ∧ r.id = id ∧ r.requestKey = k := by
  have hinst : (installNew mplsTable (leaveOld d o n) o n).fib = (leaveOld d o n).fib := by
    rcases n with _ | m
    · rfl
    · rw [Option.all_some] at hn
      simp [installNew, hn, Dest.modify]
  have hkeep : (keepInstalled d n).fib = d.fib := by
    rcases n with _ | m
    · rfl
    · rw [Option.all_some] at hn
      simp [keepInstalled, hn]
  have hleave : Owned (leaveOld d o n).fib id k ↔
      ∃ r ∈ d.routes, d.preserved = some r.id ∧ r.id = id ∧ r.requestKey = k := by
    rw [fib_leaveOld h]
    rcases o with _ | l
    · dsimp only
      rw [hk.owned_iff h, or_iff_right]
      rintro ⟨l, ⟨⟩, -⟩
    · dsimp only
      cases hl : l.isSystem with
      | true =>
        rw [if_neg (by simp), hk.owned_iff h, or_iff_right]
        rintro ⟨l', hl', hsys, -⟩
        rw [← Option.some.inj hl', hl] at hsys
        cases hsys
      | false =>
        rw [if_pos ⟨rfl, hn⟩, owned_erase, hk.owned_iff h]
        constructor
        · rintro ⟨hne, ⟨l', hl', -, -, hkey⟩ | hp⟩
          · rw [← Option.some.inj hl'] at hkey
            exact absurd hkey.symm hne
          · exact hp
        · rintro ⟨r, hr, hp, hid, hkey⟩
          exact ⟨hkey ▸ hk.key_ne h hr hp hl, .inr ⟨r, hr, hp, hid, hkey⟩⟩
  unfold updateFib
  split
  · rw [hinst, hleave]
  · rename_i hsame
    rw [not_or, not_not] at hsame
    rw [hkeep]
    have hun : leaveOld d o n = d := by
      unfold leaveOld
      rcases o with _ | l
      · rfl
      · dsimp only
        rw [if_neg (not_not.mpr hsame.1)]
    rw [← hleave, hun]

/-! ### When no route stays behind -/

/-- `rib_process` after the flags of the nexthops are up to date. -/
def Dest.processed (mplsTable : Int32) (d : Dest) (o n : Option Rib) : Dest :=
  let d' := updateFib mplsTable d o n
  { d' with
    routes := d'.routes.filter (!·.removed)
    preserved := preservedAfter mplsTable d o n }

theorem exists_updateFib (h : Selection d o n) (P : Rib → Prop) :
    (∃ r ∈ (updateFib mplsTable d o n).routes, P r.core) ↔
      ∃ r ∈ d.routes, P (r.core.select (n.map Rib.id = some r.id)) := by
  have hmap : ∀ (f : Rib → Rib) (rs : List Rib), (∃ r ∈ rs, P (f r)) ↔ ∃ r ∈ rs.map f, P r := by
    intro f rs
    simp only [List.mem_map, exists_exists_and_eq_and]
  rw [hmap Rib.core, core_updateFib h]
  exact (hmap _ _).symm

/-- The entries that belong into the kernel afterwards. -/
theorem inKernel_processed (h : Selection d o n) (id : Nat) (k : Key) :
    (∃ r ∈ (d.processed mplsTable o n).routes, r.id = id ∧ r.requestKey = k ∧
        (d.processed mplsTable o n).InKernel r) ↔
      (∃ m, n = some m ∧ m.isSystem = false ∧ m.id = id ∧ m.requestKey = k) ∨
      ∃ r ∈ d.routes, preservedAfter mplsTable d o n = some r.id ∧ r.removed = false ∧
        r.id = id ∧ r.requestKey = k := by
  have hthere := @exists_updateFib mplsTable d o n h fun r =>
    r.removed = false ∧ r.id = id ∧ r.requestKey = k ∧ (d.processed mplsTable o n).InKernel r
  have hfilter : (∃ r ∈ (d.processed mplsTable o n).routes, r.id = id ∧ r.requestKey = k ∧
        (d.processed mplsTable o n).InKernel r) ↔
      ∃ r ∈ (updateFib mplsTable d o n).routes, r.core.removed = false ∧ r.core.id = id ∧
        r.core.requestKey = k ∧ (d.processed mplsTable o n).InKernel r.core := by
    simp only [Dest.processed, List.mem_filter, Bool.not_eq_true', and_assoc]
    rfl
  rw [hfilter, hthere]
  constructor
  · rintro ⟨r, hr, hrem, hid, hkey, ⟨hsel, hsys⟩ | hp⟩
    · rcases n with _ | m
      · cases hsel
      · have hmr : m = r :=
          h.ids m (h.newMem m rfl) r hr (Option.some.inj (of_decide_eq_true hsel))
        exact .inl ⟨r, congrArg some hmr, hsys, hid, hkey⟩
    · exact .inr ⟨r, hr, hp, hrem, hid, hkey⟩
  · rintro (⟨m, rfl, hsys, hid, hkey⟩ | ⟨r, hr, hp, hrem, hid, hkey⟩)
    · exact ⟨m, h.newMem m rfl, h.newThere m rfl, hid, hkey, .inl ⟨decide_eq_true rfl, hsys⟩⟩
    · exact ⟨r, hr, hrem, hid, hkey, .inr hp⟩

/-- Another entry than one of zebra's own leaves the preserved route where it is. -/
theorem exact_processed_system (h : Selection d o n) (hk : d.Kept mplsTable o)
    (hn : n.all Rib.isSystem = true) :
    (d.processed mplsTable o n).Exact ↔ Clean mplsTable d o n := by
  have hmpls : mplsSelected mplsTable n = false := by
    rcases n with _ | m
    · rfl
    · rw [Option.all_some] at hn
      simp [mplsSelected, hn]
  have hafter : preservedAfter mplsTable d o n = none := by simp [preservedAfter, hmpls]
  have hsys : ∀ m, n = some m → m.isSystem = true := by
    rintro m rfl
    exact hn
  unfold Dest.Exact
  simp only [inKernel_processed h, hafter]
  constructor
  · intro hex
    refine ⟨?_, ?_, ?_⟩
    · intro m _ hsel
      rw [hmpls] at hsel
      cases hsel
    · intro _ r hr hp
      rcases (hex r.id r.requestKey).mp ((owned_updateFib_system h hk hn _ _).mpr
        ⟨r, hr, hp, rfl, rfl⟩) with ⟨m, hm, hmsys, -⟩ | ⟨s, -, ⟨⟩, -⟩
      rw [hsys m hm] at hmsys
      cases hmsys
    · intro _ m _ hm _ _ hmsys
      rw [hsys m hm] at hmsys
      cases hmsys
  · intro hc id k
    refine iff_of_false (fun hown => ?_) ?_
    · obtain ⟨r, hr, hp, -⟩ := (owned_updateFib_system h hk hn id k).mp hown
      obtain ⟨m, hm, hmsys, -⟩ := hc.left hmpls r hr hp
      rw [hsys m hm] at hmsys
      cases hmsys
    · rintro (⟨m, hm, hmsys, -⟩ | ⟨s, -, ⟨⟩, -⟩)
      rw [hsys m hm] at hmsys
      cases hmsys

theorem preserveOld_custom (h : preserveOld mplsTable (some l) m = true) :
    customTable mplsTable l = false ∧ customTable mplsTable m = true := by
  simp only [preserveOld, Option.any_some, Bool.and_eq_true, Bool.not_eq_true'] at h
  refine ⟨?_, h.2⟩
  unfold sameTable at h
  split at h
  · cases h.1
  · rename_i hne
    unfold customTable at *
    rw [decide_eq_true_iff] at h
    exact decide_eq_false fun hl => hne (hl.trans h.2.symm)

theorem custom_of_not_preserveOld (h : preserveOld mplsTable (some l) m = false)
    (hm : customTable mplsTable m = true) : l.table = m.table := by
  unfold preserveOld sameTable at h
  unfold customTable at *
  simp only [Option.any_some, hm, Bool.and_true, Bool.not_eq_false'] at h
  split at h
  · assumption
  · rw [if_pos (of_decide_eq_true hm), ite_self] at h
    cases h

/-- Everything else that was in the kernel has to go. -/
theorem exact_iff_erased (h : Selection d o (some m)) (hk : d.Kept mplsTable o)
    (hm : m.isSystem = false) (hcustom : customTable mplsTable m = false) :
    (d.processed mplsTable o (some m)).Exact ↔
      ∀ id k, k ≠ m.requestKey → Owned d.fib id k → Erased mplsTable o m k := by
  have hmpls : mplsSelected mplsTable (some m) = false := by simp [mplsSelected, hcustom]
  have hafter : preservedAfter mplsTable d o (some m) = none := by simp [preservedAfter, hmpls]
  unfold Dest.Exact
  simp only [inKernel_processed h, hafter]
  refine forall_congr' fun id => forall_congr' fun k => ?_
  have hown := owned_updateFib h hk hm id k
  constructor
  · intro hiff hne hold
    by_contra hno
    rcases hiff.mp (hown.mpr (.inr ⟨hne, hold, hno⟩)) with ⟨_, ⟨⟩, -, -, hkey⟩ | ⟨s, -, ⟨⟩, -⟩
    exact hne hkey.symm
  · intro hall
    constructor
    · intro hnew
      rcases hown.mp hnew with ⟨hkey, hid⟩ | ⟨hne, hold, hno⟩
      · exact .inl ⟨m, rfl, hm, hid.symm, hkey.symm⟩
      · exact absurd (hall hne hold) hno
    · rintro (⟨_, ⟨⟩, -, hid, hkey⟩ | ⟨s, -, ⟨⟩, -⟩)
      exact hown.mpr (.inl ⟨hkey.symm, hid.symm⟩)

theorem exact_processed_plain (h : Selection d o (some m)) (hk : d.Kept mplsTable o)
    (hm : m.isSystem = false) (hcustom : customTable mplsTable m = false) :
    (d.processed mplsTable o (some m)).Exact ↔ Clean mplsTable d o (some m) := by
  have hmpls : mplsSelected mplsTable (some m) = false := by simp [mplsSelected, hcustom]
  have hpres : preserveOld mplsTable o m = false := by simp [preserveOld, hcustom]
  rw [exact_iff_erased h hk hm hcustom]
  constructor
  · intro hall
    refine ⟨?_, ?_, ?_⟩
    · intro _ _ hsel
      rw [hmpls] at hsel
      cases hsel
    · intro _ r hr hp
      refine ⟨m, rfl, hm, .inr (by_contra fun hne => ?_)⟩
      obtain ⟨l, rfl, hl, -, -, hkey⟩ := hall _ _ hne (hk.exact.owned hr (.inr hp))
      exact hk.key_ne h hr hp hl hkey
    · rintro l _ rfl ⟨⟩ - hl - - hmet
      by_contra hne
      obtain ⟨l', hl', -, -, hmet', -⟩ :=
        hall _ _ hne (hk.exact.owned (h.oldMem l rfl) (h.inKernel_old hl))
      rw [← Option.some.inj hl'] at hmet'
      exact hmet' hmet
  · intro hc id k hne hold
    rcases (hk.owned_iff h id k).mp hold with ⟨l, rfl, hl, hid, hkey⟩ | ⟨r, hr, hp, hid, hkey⟩
    · refine ⟨l, rfl, hl, hpres, fun hmet => ?_, hkey.symm⟩
      have hids : l.id ≠ m.id := fun he => by
        rw [h.ids l (h.oldMem l rfl) m (h.newMem m rfl) he] at hkey
        exact hne hkey.symm
      rw [hc.table l m rfl rfl hids hl hm hmpls hmet] at hkey
      exact hne hkey.symm
    · obtain ⟨_, ⟨⟩, -, heq | heq⟩ := hc.left hmpls r hr hp
      · rw [h.ids r hr m (h.newMem m rfl) heq] at hkey
        exact absurd hkey.symm hne
      · exact absurd (heq.symm.trans hkey).symm hne

/-- What is preserved is no route of the MPLS table. -/
theorem preservedAfter_custom (h : Selection d o (some m)) (hk : d.Kept mplsTable o)
    (hr : r ∈ d.routes) (hp : preservedAfter mplsTable d o (some m) = some r.id) :
    customTable mplsTable r = false := by
  unfold preservedAfter at hp
  split at hp
  · split at hp
    · rename_i hpres
      rw [Option.any_some] at hpres
      rcases o with _ | l
      · cases hp
      · obtain ⟨l', hl', hid⟩ := Option.map_eq_some_iff.mp hp
        obtain ⟨hl', -⟩ := Option.filter_eq_some_iff.mp hl'
        rw [← Option.some.inj hl'] at hid
        rw [← h.ids l (h.oldMem l rfl) r hr hid]
        exact (preserveOld_custom hpres).1
    · exact hk.preserved r hr hp
  · cases hp

/-- What the new entry of the MPLS table leaves in the kernel is preserved from then on. -/
theorem owned_preserved (h : Selection d o (some m)) (hk : d.Kept mplsTable o)
    (hsel : mplsSelected mplsTable (some m) = true) {id : Nat} {k : Key} (hne : k ≠ m.requestKey) :
    Owned d.fib id k ∧ ¬ Erased mplsTable o m k ↔
      ∃ r ∈ d.routes, preservedAfter mplsTable d o (some m) = some r.id ∧ r.id = id ∧
        r.requestKey = k := by
  have hcustom : customTable mplsTable m = true := by
    simp only [mplsSelected, Option.any_some, Bool.and_eq_true] at hsel
    exact hsel.1
  rw [hk.owned_iff h, preservedAfter, if_pos hsel, Option.any_some]
  cases hpres : preserveOld mplsTable o m with
  | true =>
    rw [if_pos rfl]
    rcases o with _ | l
    · cases hpres
    have hfree : d.preserved = none := by
      cases hp : d.preserved with
      | none => rfl
      | some i =>
        obtain ⟨l', hl', hc, -⟩ := hk.old i hp
        rw [← Option.some.inj hl', (preserveOld_custom hpres).1] at hc
        cases hc
    have hno : ¬ Erased mplsTable (some l) m k := by
      rintro ⟨-, -, -, hf, -⟩
      rw [hpres] at hf
      cases hf
    rw [and_iff_left hno]
    constructor
    · rintro (⟨l', hl', hsys, hid, hkey⟩ | ⟨r, -, hp, -⟩)
      · obtain rfl := Option.some.inj hl'
        exact ⟨l, h.oldMem l rfl, by simp [hsys], hid, hkey⟩
      · rw [hfree] at hp
        cases hp
    · rintro ⟨r, hr, hp, hid, hkey⟩
      obtain ⟨l', hl', hlr⟩ := Option.map_eq_some_iff.mp hp
      obtain ⟨hl', hsys⟩ := Option.filter_eq_some_iff.mp hl'
      obtain rfl := Option.some.inj hl'
      obtain rfl := h.ids l (h.oldMem l rfl) r hr hlr
      exact .inl ⟨l, rfl, by simpa using hsys, hid, hkey⟩
  | false =>
    rw [if_neg Bool.false_ne_true]
    constructor
    · rintro ⟨⟨l, rfl, hl, hid, hkey⟩ | hp, hno⟩
      · have htable := custom_of_not_preserveOld hpres hcustom
        have hmet : l.metric ≠ m.metric := by
          intro hmet
          refine hne (hkey.symm.trans ?_)
          unfold Rib.requestKey
          rw [htable, hmet]
        exact absurd ⟨l, rfl, hl, hpres, hmet, hkey.symm⟩ hno
      · exact hp
    · rintro ⟨r, hr, hp, hid, hkey⟩
      refine ⟨.inr ⟨r, hr, hp, hid, hkey⟩, ?_⟩
      rintro ⟨l, rfl, hl, -, -, hkey'⟩
      exact hk.key_ne h hr hp hl (hkey.trans hkey')

theorem clean_iff_preserved (hmpls : mplsSelected mplsTable (some m) = true) :
    Clean mplsTable d o (some m) ↔ ∀ r ∈ d.routes,
      preservedAfter mplsTable d o (some m) = some r.id →
        (r.removed = true ↔ r.requestKey = m.requestKey) := by
  constructor
  · intro hc
    exact hc.preserved m rfl hmpls
  · intro hall
    refine ⟨?_, ?_, ?_⟩
    · rintro _ ⟨⟩ -
      exact hall
    · intro hno
      rw [hmpls] at hno
      cases hno
    · intro _ _ _ _ _ _ _ hno
      rw [hmpls] at hno
      cases hno

theorem exact_processed_mpls (h : Selection d o (some m)) (hk : d.Kept mplsTable o)
    (hm : m.isSystem = false) (hcustom : customTable mplsTable m = true) :
    (d.processed mplsTable o (some m)).Exact ↔ Clean mplsTable d o (some m) := by
  have hmpls : mplsSelected mplsTable (some m) = true := by simp [mplsSelected, hcustom, hm]
  have hnot : ∀ r ∈ d.routes, preservedAfter mplsTable d o (some m) = some r.id → r.id ≠ m.id := by
    intro r hr hp hid
    have hc := preservedAfter_custom h hk hr hp
    rw [h.ids r hr m (h.newMem m rfl) hid, hcustom] at hc
    cases hc
  have hown : ∀ id k, Owned (updateFib mplsTable d o (some m)).fib id k ↔
      k = m.requestKey ∧ id = m.id ∨ k ≠ m.requestKey ∧ ∃ r ∈ d.routes,
        preservedAfter mplsTable d o (some m) = some r.id ∧ r.id = id ∧ r.requestKey = k := by
    intro id k
    rw [owned_updateFib h hk hm]
    exact or_congr_right (and_congr_right fun hne => owned_preserved h hk hmpls hne)
  rw [clean_iff_preserved hmpls]
  unfold Dest.Exact
  simp only [inKernel_processed h]
  constructor
  · intro hex r hr hp
    have hr' := hex r.id r.requestKey
    constructor
    · intro hrem
      by_contra hne
      rcases hr'.mp ((hown _ _).mpr (.inr ⟨hne, r, hr, hp, rfl, rfl⟩)) with
        ⟨_, ⟨⟩, -, -, hkey⟩ | ⟨s, hs, -, hsrem, hid, -⟩
      · exact hne hkey.symm
      · rw [h.ids s hs r hr hid, hrem] at hsrem
        cases hsrem
    · intro hkey
      by_contra hrem
      rcases (hown _ _).mp (hr'.mpr (.inr ⟨r, hr, hp, Bool.eq_false_iff.mpr hrem, rfl, rfl⟩)) with
        ⟨-, hid⟩ | ⟨hne, -⟩
      · exact hnot r hr hp hid
      · exact hne hkey
  · intro hall id k
    constructor
    · intro hnew
      rcases (hown id k).mp hnew with ⟨hkey, hid⟩ | ⟨hne, r, hr, hp, hid, hkey⟩
      · exact .inl ⟨m, rfl, hm, hid.symm, hkey.symm⟩
      · refine .inr ⟨r, hr, hp, Bool.eq_false_iff.mpr fun hrem => ?_, hid, hkey⟩
        exact hne (hkey.symm.trans ((hall r hr hp).mp hrem))
    · rintro (⟨_, ⟨⟩, -, hid, hkey⟩ | ⟨r, hr, hp, hrem, hid, hkey⟩)
      · exact (hown id k).mpr (.inl ⟨hkey.symm, hid.symm⟩)
      · refine (hown id k).mpr (.inr ⟨fun hk' => ?_, r, hr, hp, hid, hkey⟩)
        rw [(hall r hr hp).mpr (hkey.trans hk')] at hrem
        cases hrem

/-- The update leaves exactly the routes that belong into the kernel where it is clean. -/
theorem exact_processed_iff (h : Selection d o n) (hk : d.Kept mplsTable o) :
    (d.processed mplsTable o n).Exact ↔ Clean mplsTable d o n := by
  cases hn : n.all Rib.isSystem with
  | true => exact exact_processed_system h hk hn
  | false =>
    rcases n with _ | m
    · cases hn
    rw [Option.all_some] at hn
    cases hc : customTable mplsTable m with
    | true => exact exact_processed_mpls h hk hn hc
    | false => exact exact_processed_plain h hk hn hc

end

/-! ### Runs -/

structure Dest.Inv (mplsTable : Int32) (d : Dest) : Prop where
  exact : d.Exact
  nodup : (d.routes.map Rib.id).Nodup
  fresh : ∀ r ∈ d.routes, r.id < d.next
  selected : ∀ r ∈ d.routes, ∀ s ∈ d.routes, r.selectedFib = true → s.selectedFib = true →
    r.id = s.id
  sends : ∀ r ∈ d.routes, r.selectedFib = true → r.isSystem = false → r.sends .delRoute = true
  preserved : ∀ i, d.preserved = some i → i < d.next ∧
    (∃ l ∈ d.routes, l.selectedFib = true ∧ customTable mplsTable l = true ∧ l.isSystem = false) ∧
    ∀ r ∈ d.routes, r.id = i → customTable mplsTable r = false

theorem inv_nil (mplsTable : Int32) : Dest.Inv mplsTable {} := by
  have hnil : ∀ r : Rib, r ∉ (Dest.routes {}) := fun _ => List.not_mem_nil
  refine ⟨fun id k => ?_, List.nodup_nil, fun r hr => absurd hr (hnil r),
    fun r hr => absurd hr (hnil r), fun r hr => absurd hr (hnil r),
    fun i (hp : none = some i) => absurd hp (Option.some_ne_none i).symm⟩
  refine iff_of_false ?_ ?_
  · rintro ⟨r, ⟨⟩, -⟩
  · rintro ⟨r, ⟨⟩, -⟩

/-- The same entry as far as the kernel's routes are concerned. -/
structure Same (r s : Rib) : Prop where
  id : r.id = s.id
  type : r.type = s.type
  table : r.table = s.table
  metric : r.metric = s.metric
  selectedFib : r.selectedFib = s.selectedFib
  sends : r.sends .delRoute = s.sends .delRoute

section
variable {mplsTable : Int32} {d : Dest} {r s : Rib}

theorem Same.isSystem (h : Same r s) : r.isSystem = s.isSystem := by
  unfold Rib.isSystem
  rw [h.type]

theorem Same.customTable (h : Same r s) : customTable mplsTable r = customTable mplsTable s := by
  unfold Zebra.customTable
  rw [h.table]

theorem Same.requestKey (h : Same r s) : r.requestKey = s.requestKey := by
  unfold Rib.requestKey
  rw [h.table, h.metric]

theorem Same.inKernel (h : Same r s) : d.InKernel r ↔ d.InKernel s := by
  unfold Dest.InKernel
  rw [h.selectedFib, h.isSystem, h.id]

theorem Dest.Inv.map (h : d.Inv mplsTable) {f : Rib → Rib} (hf : ∀ r, Same (f r) r) :
    Dest.Inv mplsTable { d with routes := d.routes.map f } := by
  constructor
  · intro id k
    rw [show Owned (Dest.fib { d with routes := d.routes.map f }) id k ↔ _ from h.exact id k]
    simp only [List.mem_map, exists_exists_and_eq_and, (hf _).id, (hf _).requestKey]
    refine exists_congr fun r => and_congr_right fun _ => and_congr_right fun _ =>
      and_congr_right fun _ => ?_
    exact (hf r).inKernel.symm
  · have hid : (Rib.id ∘ f) = Rib.id := funext fun r => (hf r).id
    simpa only [List.map_map, hid] using h.nodup
  · simp only [List.forall_mem_map, (hf _).id]
    exact h.fresh
  · simp only [List.forall_mem_map, (hf _).id, (hf _).selectedFib]
    exact h.selected
  · simp only [List.forall_mem_map, (hf _).isSystem, (hf _).selectedFib, (hf _).sends]
    exact h.sends
  · simp only [List.mem_map, exists_exists_and_eq_and, forall_exists_index, and_imp,
      forall_apply_eq_imp_iff₂, (hf _).isSystem, (hf _).selectedFib, (hf _).customTable, (hf _).id]
    exact h.preserved

theorem same_activeUpdate (active : Nat → Hop → Bool) (moved : Nat → Bool) (r : Rib) :
    Same (r.activeUpdate active moved) r := by
  unfold Rib.activeUpdate
  split
  · constructor <;> rfl
  · refine ⟨rfl, rfl, rfl, rfl, rfl, ?_⟩
    simp only [Rib.sends, Rib.discard, List.any_map]
    rfl

theorem Dest.Inv.ribDelnode (h : d.Inv mplsTable) (r : Rib) : (d.ribDelnode r).Inv mplsTable := by
  refine h.map fun s => ?_
  split <;> constructor <;> rfl

theorem Dest.Inv.cons (h : d.Inv mplsTable) (hid : r.id = d.next) (hsel : r.selectedFib = false) :
    Dest.Inv mplsTable { d with routes := r :: d.routes, next := d.next + 1 } := by
  have hpres : d.preserved ≠ some r.id := by
    intro hp
    have hlt := (h.preserved _ hp).1
    rw [hid] at hlt
    exact lt_irrefl _ hlt
  have hin : ∀ {s}, s ∈ r :: d.routes → d.InKernel s → s ∈ d.routes := by
    rintro s hs hk
    rcases List.mem_cons.mp hs with rfl | hs
    · rcases hk with ⟨hk, -⟩ | hk
      · rw [hsel] at hk
        cases hk
      · exact absurd hk hpres
    · exact hs
  have hold : ∀ {s}, s ∈ r :: d.routes → s.selectedFib = true → s ∈ d.routes := by
    intro s hs hk
    rcases List.mem_cons.mp hs with rfl | hs
    · rw [hsel] at hk
      cases hk
    · exact hs
  constructor
  · intro id k
    refine (h.exact id k).trans ⟨?_, ?_⟩
    · rintro ⟨s, hs, hk⟩
      exact ⟨s, List.mem_cons_of_mem _ hs, hk⟩
    · rintro ⟨s, hs, hsid, hkey, hk⟩
      exact ⟨s, hin hs hk, hsid, hkey, hk⟩
  · refine List.nodup_cons.mpr ⟨fun hmem => ?_, h.nodup⟩
    obtain ⟨s, hs, hsid⟩ := List.mem_map.mp hmem
    have hlt := h.fresh s hs
    rw [hsid, hid] at hlt
    exact lt_irrefl _ hlt
  · refine List.forall_mem_cons.mpr ⟨hid ▸ Nat.lt_succ_self _, fun s hs => ?_⟩
    exact Nat.lt_succ_of_lt (h.fresh s hs)
  · intro s hs t ht hss hts
    exact h.selected s (hold hs hss) t (hold ht hts) hss hts
  · intro s hs hss
    exact h.sends s (hold hs hss) hss
  · intro i hp
    obtain ⟨hlt, ⟨l, hl, hl'⟩, hcustom⟩ := h.preserved i hp
    refine ⟨Nat.lt_succ_of_lt hlt, ⟨l, List.mem_cons_of_mem _ hl, hl'⟩, ?_⟩
    refine List.forall_mem_cons.mpr ⟨fun he => ?_, hcustom⟩
    rw [hp, he] at hpres
    exact absurd rfl hpres

theorem Dest.Inv.add (h : d.Inv mplsTable) (a : Announce) :
    (ribAddIpv4Multipath d a).Inv mplsTable := by
  have hcons := h.cons (r := a.rib d.next) rfl rfl
  unfold ribAddIpv4Multipath
  dsimp only
  cases List.find? _ _ with
  | none => exact hcons
  | some s => exact hcons.ribDelnode s

theorem Dest.Inv.delete (h : d.Inv mplsTable) (type : RouteType) (gate : Option Nat)
    (ifindex : Nat) : (ribDeleteIpv4 d type gate ifindex).Inv mplsTable := by
  unfold ribDeleteIpv4
  cases List.find? _ _ with
  | none => exact h
  | some s => exact h.ribDelnode s

theorem ribChooseBest_mem {p : Rib → Prop} {c : Option Rib} {a : Rib} (hc : ∀ r, c = some r → p r)
    (ha : p a) : ∀ r, ribChooseBest c a = some r → p r := by
  have hor : ∀ r, some a = some r ∨ c = some r → p r := by
    rintro r (⟨⟨⟩⟩ | h)
    · exact ha
    · exact hc r h
  intro r hr
  apply hor
  rcases c with _ | b
  · exact .inl hr
  · unfold ribChooseBest at hr
    dsimp only at hr
    repeat' first | exact .inl hr | exact .inr hr | split at hr

theorem foldl_ribChooseBest {p : Rib → Prop} (rs : List Rib) (h : ∀ r ∈ rs, p r) (c : Option Rib)
    (hc : ∀ r, c = some r → p r) : ∀ r, rs.foldl ribChooseBest c = some r → p r := by
  induction rs generalizing c with
  | nil => exact hc
  | cons a rs ih =>
    rw [List.forall_mem_cons] at h
    exact ih h.2 _ (ribChooseBest_mem hc h.1)

/-- The selected entry is one of the list that can be installed. -/
theorem newFib_mem {routes : List Rib} (h : newFib routes = some r) :
    r ∈ routes ∧ r.eligible = true := by
  have hfold : ∀ q : Rib → Bool,
      (routes.filter fun r => r.eligible && q r).foldl ribChooseBest none = some r →
        r ∈ routes ∧ r.eligible = true := by
    intro q
    refine foldl_ribChooseBest (p := fun r => r ∈ routes ∧ r.eligible = true) _ ?_ none
      (fun _ hr => absurd hr (Option.some_ne_none _).symm) r
    intro s hs
    obtain ⟨hs, hq⟩ := List.mem_filter.mp hs
    exact ⟨hs, (Bool.and_eq_true _ _ ▸ hq).1⟩
  unfold newFib at h
  rcases Option.or_eq_some_iff.mp h with h | ⟨-, h⟩
  · exact hfold (·.fibOverride) h
  · exact hfold (!·.fibOverride) h

theorem Dest.Inv.selection (h : d.Inv mplsTable) :
    Selection d (oldFib d.routes) (newFib d.routes) := by
  have hids := List.inj_on_of_nodup_map h.nodup
  have helig : ∀ r, newFib d.routes = some r →
      r.removed = false ∧ r.nexthops.any (·.usable .newRoute) = true := by
    intro r hr
    have he := (newFib_mem hr).2
    simp only [Rib.eligible, Bool.and_eq_true, Bool.not_eq_true'] at he
    exact he.1
  constructor
  · intro r hr s hs
    exact hids hr hs
  · intro r hr
    constructor
    · intro hsel
      cases ho : oldFib d.routes with
      | none => exact absurd hsel (List.find?_eq_none.mp ho r hr)
      | some l =>
        exact congrArg some (h.selected l (List.mem_of_find?_eq_some ho) r hr
          (List.find?_some ho) hsel)
    · intro ho
      obtain ⟨l, hl, hid⟩ := Option.map_eq_some_iff.mp ho
      rw [← hids (List.mem_of_find?_eq_some hl) hr hid]
      exact List.find?_some hl
  · intro r hr
    exact List.mem_of_find?_eq_some hr
  · intro r hr
    exact (newFib_mem hr).1
  · intro r hr
    unfold Rib.sends
    rw [(helig r hr).2, Bool.or_true]
  · intro r hr
    exact (helig r hr).1
  · intro r hr hsys
    exact h.sends r (List.mem_of_find?_eq_some hr) (List.find?_some hr) hsys

theorem Dest.Inv.kept (h : d.Inv mplsTable) : d.Kept mplsTable (oldFib d.routes) := by
  refine ⟨h.exact, fun i hp => ?_, fun r hr hp => (h.preserved _ hp).2.2 r hr rfl⟩
  obtain ⟨l, hl, hsel, hl'⟩ := (h.preserved i hp).2.1
  exact ⟨l, h.selection.old_eq hl hsel, hl'⟩

theorem next_ribUpdateKernel (o n : Option Rib) : (ribUpdateKernel d o n).next = d.next := by
  unfold ribUpdateKernel
  cases kernelRouteRib noRefusals d.fib o n with
  | none => rfl
  | some out =>
    dsimp only
    cases n <;> cases o <;> dsimp only [Option.elim] <;> repeat' first | rfl | split

theorem next_updateFib (o n : Option Rib) : (updateFib mplsTable d o n).next = d.next := by
  have hleave : (leaveOld d o n).next = d.next := by
    unfold leaveOld
    rcases o with _ | l
    · rfl
    · dsimp only
      split
      · split
        · exact next_ribUpdateKernel _ _
        · rfl
      · rfl
  have hinst : ∀ d : Dest, (installNew mplsTable d o n).next = d.next := by
    intro d
    unfold installNew
    rcases n with _ | m
    · rfl
    · dsimp only
      split
      · rfl
      · split <;> exact next_ribUpdateKernel _ _
  have hkeep : (keepInstalled d n).next = d.next := by
    unfold keepInstalled
    rcases n with _ | m
    · rfl
    · dsimp only
      split
      · exact next_ribUpdateKernel _ _
      · rfl
  unfold updateFib
  split
  · rw [hinst, hleave]
  · exact hkeep

variable {o n : Option Rib} {m : Rib}

theorem exists_of_mem_updateFib (h : Selection d o n)
    (hr : r ∈ (updateFib mplsTable d o n).routes) :
    ∃ s ∈ d.routes, r.core = s.core.select (n.map Rib.id = some s.id) := by
  have hmem := List.mem_map_of_mem (f := Rib.core) hr
  rw [core_updateFib h] at hmem
  obtain ⟨s, hs, hsr⟩ := List.mem_map.mp hmem
  exact ⟨s, hs, hsr.symm⟩

theorem mem_select {id : Nat} {b : Bool} (hr : r ∈ (d.modify id (Rib.select b)).routes) :
    ∃ s ∈ d.routes, r.id = s.id ∧ r.sends .newRoute = s.sends .newRoute := by
  obtain ⟨s, hs, rfl⟩ := mem_modify.mp hr
  refine ⟨s, hs, ?_⟩
  split <;> exact ⟨rfl, rfl⟩

theorem mem_leaveOld (hm : m.isSystem = false) (hr : r ∈ (leaveOld d o (some m)).routes) :
    ∃ s ∈ d.routes, r.id = s.id ∧ r.sends .newRoute = s.sends .newRoute := by
  unfold leaveOld at hr
  rcases o with _ | l
  · exact ⟨r, hr, rfl, rfl⟩
  · dsimp only at hr
    split at hr
    · rw [Option.all_some, hm, Bool.and_false, if_neg Bool.false_ne_true] at hr
      exact mem_select hr
    · exact ⟨r, hr, rfl, rfl⟩

/-- What is selected can be deleted later. -/
theorem sends_updateFib (h : Selection d o (some m)) (hm : m.isSystem = false)
    (hr : r ∈ (updateFib mplsTable d o (some m)).routes) (hid : r.id = m.id) :
    r.sends .delRoute = true := by
  have hself : ∀ s ∈ d.routes, s.id = m.id → s = m := fun s hs he =>
    h.ids s hs m (h.newMem m rfl) he
  have hnew : ∀ s ∈ ((leaveOld d o (some m)).modify m.id (Rib.select true)).routes, s.id = m.id →
      s.sends .newRoute = true := by
    intro s hs he
    obtain ⟨u, hu, hsu⟩ := mem_select hs
    obtain ⟨v, hv, huv⟩ := mem_leaveOld hm hu
    rw [hsu.2, huv.2, hself v hv (huv.1.symm.trans (hsu.1.symm.trans he))]
    exact h.newSends m rfl
  unfold updateFib at hr
  split at hr
  · unfold installNew at hr
    simp only [hm, Bool.false_eq_true, if_false] at hr
    split at hr
    · exact sends_ribUpdateKernel hnew r hr hid
    · exact sends_ribUpdateKernel hnew r hr hid
  · rename_i hsame
    rw [not_or, not_not] at hsame
    unfold keepInstalled at hr
    dsimp only at hr
    split at hr
    · refine sends_ribUpdateKernel (fun s hs he => ?_) r hr hid
      rw [hself s hs he]
      exact h.newSends m rfl
    · rcases o with _ | l
      · cases hsame.1
      · have hlm := h.ids l (h.oldMem l rfl) m (h.newMem m rfl) (Option.some.inj hsame.1)
        rw [hself r hr hid, ← hlm]
        exact h.oldSends l rfl (hlm ▸ hm)

theorem mplsSelected_iff : mplsSelected mplsTable n = true ↔
    ∃ m, n = some m ∧ customTable mplsTable m = true ∧ m.isSystem = false := by
  rcases n with _ | m
  · exact iff_of_false Bool.false_ne_true (by rintro ⟨m, ⟨⟩, -⟩)
  · simp [mplsSelected]

/-- The preserved entry was preserved or selected before. -/
theorem preservedAfter_eq {i : Nat} (hp : preservedAfter mplsTable d o n = some i) :
    mplsSelected mplsTable n = true ∧
      (d.preserved = some i ∨ ∃ l, o = some l ∧ l.id = i) := by
  unfold preservedAfter at hp
  split at hp
  · rename_i hsel
    refine ⟨hsel, ?_⟩
    split at hp
    · obtain ⟨l, hl, hid⟩ := Option.map_eq_some_iff.mp hp
      exact .inr ⟨l, (Option.filter_eq_some_iff.mp hl).1, hid⟩
    · exact .inl hp
  · cases hp

theorem Dest.Inv.processed (h : d.Inv mplsTable)
    (hc : Clean mplsTable d (oldFib d.routes) (newFib d.routes)) :
    (d.processed mplsTable (oldFib d.routes) (newFib d.routes)).Inv mplsTable := by
  have hsel := h.selection
  have hnext := @next_updateFib mplsTable d (oldFib d.routes) (newFib d.routes)
  have hback : ∀ r ∈ (d.processed mplsTable (oldFib d.routes) (newFib d.routes)).routes,
      r ∈ (updateFib mplsTable d (oldFib d.routes) (newFib d.routes)).routes := fun r hr =>
    (List.mem_filter.mp hr).1
  have hnew : ∀ r ∈ (d.processed mplsTable (oldFib d.routes) (newFib d.routes)).routes,
      r.selectedFib = true → (newFib d.routes).map Rib.id = some r.id := by
    intro r hr hrsel
    obtain ⟨s, -, hrs⟩ := exists_of_mem_updateFib hsel (hback r hr)
    have hs := (congrArg Rib.selectedFib hrs :).symm.trans hrsel
    rw [of_decide_eq_true hs]
    exact congrArg some (congrArg Rib.id hrs :).symm
  constructor
  · exact (exact_processed_iff hsel h.kept).mpr hc
  · have hids : (updateFib mplsTable d (oldFib d.routes) (newFib d.routes)).routes.map Rib.id =
        d.routes.map Rib.id := by
      have hcore := congrArg (List.map Rib.id) (@core_updateFib mplsTable _ _ _ hsel)
      rw [List.map_map, List.map_map] at hcore
      exact hcore
    have hnodup := h.nodup
    rw [← hids] at hnodup
    exact hnodup.sublist (List.filter_sublist.map Rib.id)
  · intro r hr
    obtain ⟨s, hs, hrs⟩ := exists_of_mem_updateFib hsel (hback r hr)
    rw [show r.id = s.id from (congrArg Rib.id hrs :)]
    exact hnext ▸ h.fresh s hs
  · intro r hr s hs hrsel hssel
    exact Option.some.inj ((hnew r hr hrsel).symm.trans (hnew s hs hssel))
  · intro r hr hrsel hsys
    obtain ⟨m, hm, hid⟩ := Option.map_eq_some_iff.mp (hnew r hr hrsel)
    obtain ⟨s, hs, hrs⟩ := exists_of_mem_updateFib hsel (hback r hr)
    have hsm : s = m := hsel.ids s hs m (hsel.newMem m hm)
      ((congrArg Rib.id hrs :).symm.trans hid.symm)
    have hmsys : m.isSystem = false := by
      rw [← hsm, ← hsys]
      exact (congrArg Rib.isSystem hrs :).symm
    have hr' := hback r hr
    rw [hm] at hr' hsel
    exact sends_updateFib hsel hmsys hr' hid.symm
  · intro i hp
    obtain ⟨hmpls, hfrom⟩ := preservedAfter_eq hp
    obtain ⟨m, hm, hcustom, hsys⟩ := mplsSelected_iff.mp hmpls
    refine ⟨?_, ?_, ?_⟩
    · refine hnext ▸ ?_
      rcases hfrom with hp | ⟨l, hl, rfl⟩
      · exact (h.preserved i hp).1
      · exact h.fresh l (hsel.oldMem l hl)
    · obtain ⟨r, hr, hrem, hrest⟩ := (@exists_updateFib mplsTable _ _ _ hsel fun r =>
        r.removed = false ∧ r.selectedFib = true ∧ customTable mplsTable r = true ∧
          r.isSystem = false).mpr ⟨m, hsel.newMem m hm, hsel.newThere m hm,
            decide_eq_true (congrArg (Option.map Rib.id) hm), hcustom, hsys⟩
      exact ⟨r, List.mem_filter.mpr ⟨hr, congrArg Bool.not hrem⟩, hrest⟩
    · intro r hr hid
      obtain ⟨s, hs, hrs⟩ := exists_of_mem_updateFib hsel (hback r hr)
      have hsid : s.id = i := (congrArg Rib.id hrs :).symm.trans hid
      have hcs : customTable mplsTable s = false := by
        have hkept := h.kept
        rw [hm] at hp hsel
        exact preservedAfter_custom hsel hkept hs (hsid ▸ hp)
      exact (congrArg (customTable mplsTable) hrs :).trans hcs

/-- `nexthop_active_update` of all the entries. -/
def Dest.activeUpdate (d : Dest) (active : Nat → Hop → Bool) (moved : Nat → Bool) : Dest :=
  { d with routes := d.routes.map (·.activeUpdate active moved) }

theorem Dest.Inv.activeUpdate (h : d.Inv mplsTable) (active : Nat → Hop → Bool)
    (moved : Nat → Bool) : (d.activeUpdate active moved).Inv mplsTable :=
  h.map (same_activeUpdate active moved)

end

/-- After a processing step the kernel has the routes that belong there. -/
def ExactStep (mplsTable : Int32) (d : Dest) : Event → Prop
  | .process active moved => (ribProcess mplsTable d active moved).Exact
  | _ => True

def CleanStep (mplsTable : Int32) (d : Dest) : Event → Prop
  | .process active moved =>
    let d := d.activeUpdate active moved
    Clean mplsTable d (oldFib d.routes) (newFib d.routes)
  | _ => True

section
variable {mplsTable : Int32} {d : Dest}

theorem exactStep_iff (e : Event) (h : d.Inv mplsTable) :
    ExactStep mplsTable d e ↔ CleanStep mplsTable d e := by
  cases e with
  | add a => exact Iff.rfl
  | delete type gate ifindex => exact Iff.rfl
  | process active moved =>
    have hinv := h.activeUpdate active moved
    exact exact_processed_iff hinv.selection hinv.kept

theorem Dest.Inv.step (e : Event) (h : d.Inv mplsTable) (hc : CleanStep mplsTable d e) :
    (d.step mplsTable e).Inv mplsTable := by
  cases e with
  | add a => exact h.add a
  | delete type gate ifindex => exact h.delete type gate ifindex
  | process active moved => exact (h.activeUpdate active moved).processed hc

end

/-- In the runs whose processing steps are all clean, and in no others, every step leaves exactly
the routes of the selected and of the preserved entry. -/
theorem exact_along_iff (mplsTable : Int32) (events : List Event) :
    Along (Dest.step mplsTable) (ExactStep mplsTable) {} events ↔
      Along (Dest.step mplsTable) (CleanStep mplsTable) {} events :=
  along_iff_of_inv (fun _ e => exactStep_iff e) (fun _ e => Dest.Inv.step e) (inv_nil mplsTable)

/-! OSPF's route is preserved when LDP's is selected, and then OSPF withdraws it. -/

def ospfAdd : Announce :=
  { type := .ospf, distance := 110, metric := 11, table := 254, hops := [⟨some 1, 2, none, []⟩] }

def ldpAdd : Announce :=
  { type := .ldp, table := 13, hops := [⟨some 1, 2, none, [16]⟩] }

def process : Event := .process (fun _ _ => true) (fun _ => false)

/-- The main table keeps the route of an entry that is gone. -/
theorem not_exact_along : ¬ Along (Dest.step 13) (ExactStep 13) {}
    [.add ospfAdd, process, .add ldpAdd, process, .delete .ospf (some 1) 2, process] := by
  rintro ⟨-, -, -, -, -, h, -⟩
  have hgone : ∀ r ∈ (final (Dest.step 13) {} [.add ospfAdd, process, .add ldpAdd, process,
      .delete .ospf (some 1) 2, process]).routes, r.id ≠ 0 := by decide
  obtain ⟨r, hr, hid, -⟩ := (h 0 ⟨254, 11⟩).mp ⟨_, rfl, rfl⟩
  exact hgone r hr hid

end Dir842.Zebra
