import Dir842.Lib.Run
import Mathlib.Data.Finset.Basic

/-!
# The stamps of a package (`Makefile.package.in`)

`GENTARGETS_INNER` gives every package a set of targets over stamp files. `prereqs` and `recipe`
are its rules; `plan` lists the commands of one `make` of a goal, depth first, each target
considered once. An invocation may stop at any command that fails.
-/

namespace Dir842.Stamps
open Run

inductive Stamp
  | downloaded | extracted | patched | rsynced | configured | built
  | stagingInstalled | targetInstalled | imagesInstalled | hostInstalled
deriving DecidableEq

inductive PkgType
  | target
  | host
deriving DecidableEq

/-- The settings of a package that the rules look at. -/
structure Pkg where
  type : PkgType
  overrideSrcdir : Bool
  installStaging : Bool
  installTarget : Bool
  installImages : Bool
deriving DecidableEq

/-- Commands that touch no stamp of the package. -/
inductive PkgCmd
  /-- The order-only prerequisites `prepare`, `dependencies` and `dirs`. -/
  | prepare
  /-- Making the packages of `_DEPENDENCIES`. -/
  | depends
  | uninstallStaging | uninstallTarget | clean
deriving DecidableEq

inductive Cmd
  /-- The rule of a stamp file: its step and `touch`, if the file does not exist. -/
  | stamp (s : Stamp)
  | rm (s : Stamp)
  /-- `rm -Rf $(@D)` -/
  | rmDir
  | run (c : PkgCmd)
deriving DecidableEq

inductive Target
  | pkg | install | installStaging | installTarget | installImages | installHost
  | build | configure | patch | extract | depends | source | rsync
  | uninstall | clean | dirclean
  | cleanForRebuild | rebuild | cleanForReconfigure | reconfigure
  | prepare
  | stamp (s : Stamp)
  /-- `.stamp_uninstalled`, `.stamp_cleaned`, `.stamp_dircleaned`: never created. -/
  | uninstalled | cleaned | dircleaned
deriving DecidableEq

/-! ### The rules -/

def prereqs (p : Pkg) : Target → List Target
  | .pkg => [.install]
  | .install =>
    if p.type = .host then [.installHost] else [.installStaging, .installTarget, .installImages]
  | .installTarget => if p.installTarget then [.build, .stamp .targetInstalled] else []
  | .installStaging => if p.installStaging then [.build, .stamp .stagingInstalled] else []
  | .installImages => if p.installImages then [.build, .stamp .imagesInstalled] else []
  | .installHost => [.build, .stamp .hostInstalled]
  | .build => [.configure, .stamp .built]
  | .configure =>
    if p.overrideSrcdir then [.depends, .stamp .configured]
    else [.patch, .depends, .stamp .configured]
  | .patch => [.extract, .stamp .patched]
  | .extract => [.source, .stamp .extracted]
  | .depends => if p.overrideSrcdir then [.rsync] else []
  | .source => [.stamp .downloaded]
  | .rsync => [.stamp .rsynced]
  | .stamp .downloaded | .stamp .rsynced => [.prepare]
  | .uninstall => [.uninstalled]
  | .clean => [.uninstall, .cleaned]
  | .dirclean => [.dircleaned]
  | .rebuild => [.cleanForRebuild, .pkg]
  | .cleanForReconfigure => [.cleanForRebuild]
  | .reconfigure => [.cleanForReconfigure, .pkg]
  | _ => []

def recipe (p : Pkg) : Target → List Cmd
  | .stamp s => [.stamp s]
  | .prepare => [.run .prepare]
  | .depends => [.run .depends]
  | .uninstalled =>
    [.rm .stagingInstalled, .rm .targetInstalled, .rm .hostInstalled, .run .uninstallStaging,
      .run .uninstallTarget]
  | .cleaned => [.run .clean, .rm .built]
  | .dircleaned => [.rmDir]
  | .cleanForRebuild =>
    (if p.overrideSrcdir then [.rm .rsynced] else []) ++
      [.rm .built, .rm .stagingInstalled, .rm .targetInstalled, .rm .imagesInstalled,
        .rm .hostInstalled]
  | .cleanForReconfigure => [.rm .configured]
  | _ => []

/-- Targets considered so far, and the commands they gave. -/
def visit (p : Pkg) : Nat → Target → List Target × List Cmd → List Target × List Cmd
  | 0, _, acc => acc
  | depth + 1, t, (seen, cmds) =>
    if t ∈ seen then (seen, cmds)
    else
      let acc := (prereqs p t).foldl (fun acc t => visit p depth t acc) (t :: seen, cmds)
      (acc.1, acc.2 ++ recipe p t)

/-- The goals of a `make` invocation on the package. -/
inductive Goal
  | pkg | uninstall | clean | dirclean
  | cleanForRebuild | rebuild | cleanForReconfigure | reconfigure
deriving DecidableEq

def Goal.target : Goal → Target
  | .pkg => .pkg
  | .uninstall => .uninstall
  | .clean => .clean
  | .dirclean => .dirclean
  | .cleanForRebuild => .cleanForRebuild
  | .rebuild => .rebuild
  | .cleanForReconfigure => .cleanForReconfigure
  | .reconfigure => .reconfigure

/-- The longest chain of prerequisites has 12 targets. -/
def plan (p : Pkg) (g : Goal) : List Cmd := (visit p 12 g.target ([], [])).2

/-! ### Execution -/

structure State where
  stamps : Finset Stamp := ∅
  /-- The steps run to their end, oldest first. -/
  ran : List Stamp := []
deriving DecidableEq

def exec (st : State) : Cmd → State
  | .stamp s =>
    if s ∈ st.stamps then st else { stamps := insert s st.stamps, ran := st.ran ++ [s] }
  | .rm s => { st with stamps := st.stamps.erase s }
  | .rmDir => { st with stamps := ∅ }
  | .run _ => st

/-- `stop = some (k, left)`: the command number `k` fails. A recursive removal that fails may have
left any of the files, which is `left`; any other failing command changes no stamp. -/
structure Invocation where
  goal : Goal
  stop : Option (Nat × Finset Stamp) := none

/-- The commands run to their end. -/
def Invocation.executed (p : Pkg) (i : Invocation) : List Cmd :=
  match i.stop with
  | none => plan p i.goal
  | some (k, _) => (plan p i.goal).take k

/-- What a recursive removal that fails leaves of the stamps. -/
def Invocation.leave (p : Pkg) (i : Invocation) (stamps : Finset Stamp) : Finset Stamp :=
  match i.stop with
  | none => stamps
  | some (k, left) => if (plan p i.goal)[k]? = some .rmDir then stamps ∩ left else stamps

def make (p : Pkg) (st : State) (i : Invocation) : State :=
  let st := (i.executed p).foldl exec st
  { st with stamps := i.leave p st.stamps }

/-! ### What the stamps have to say -/

def installStamps (p : Pkg) : List Stamp :=
  if p.type = .host then [.hostInstalled]
  else (if p.installStaging then [.stagingInstalled] else []) ++
    (if p.installTarget then [.targetInstalled] else []) ++
    (if p.installImages then [.imagesInstalled] else [])

/-- The stamps without which a stamp must not exist. -/
def requires (p : Pkg) : Stamp → List Stamp
  | .stagingInstalled | .targetInstalled | .imagesInstalled | .hostInstalled => [.built]
  | .built => [.configured]
  | .configured => if p.overrideSrcdir then [] else [.patched, .extracted, .downloaded]
  | _ => []

def Chain (p : Pkg) (stamps : Finset Stamp) : Prop :=
  ∀ s ∈ stamps, ∀ r ∈ requires p s, r ∈ stamps

instance (p : Pkg) (stamps : Finset Stamp) : Decidable (Chain p stamps) :=
  inferInstanceAs (Decidable (∀ s ∈ stamps, ∀ r ∈ requires p s, r ∈ stamps))

/-! ### A plan removes stamps first and makes stamps after -/

def removals (p : Pkg) : Goal → List Cmd
  | .pkg => []
  | .uninstall => recipe p .uninstalled
  | .clean => recipe p .uninstalled ++ recipe p .cleaned
  | .dirclean => recipe p .dircleaned
  | .cleanForRebuild | .rebuild => recipe p .cleanForRebuild
  | .cleanForReconfigure | .reconfigure =>
    recipe p .cleanForRebuild ++ recipe p .cleanForReconfigure

/-- The steps of the package up to its build, each after the ones it needs. -/
def buildSteps (p : Pkg) : List Cmd :=
  if p.overrideSrcdir then
    [.run .prepare, .stamp .rsynced, .run .depends, .stamp .configured, .stamp .built]
  else
    [.run .prepare, .stamp .downloaded, .stamp .extracted, .stamp .patched, .run .depends,
      .stamp .configured, .stamp .built]

def steps (p : Pkg) : List Cmd :=
  if installStamps p = [] then [] else buildSteps p ++ (installStamps p).map .stamp

def Goal.makesPkg : Goal → Bool
  | .pkg | .rebuild | .reconfigure => true
  | _ => false

theorem plan_eq (p : Pkg) (g : Goal) :
    plan p g = removals p g ++ if g.makesPkg then steps p else [] := by
  rcases p with ⟨_ | _, _ | _, _ | _, _ | _, _ | _⟩ <;> cases g <;> rfl

/-- No command of `cmds` makes a stamp. -/
def Removing (cmds : List Cmd) : Prop := ∀ c ∈ cmds, ∀ s, c ≠ .stamp s

/-- Every command makes a stamp or touches none, and `cmds` makes a stamp only after the stamps it
requires, of which `done` are there at the start. -/
def Ordered (p : Pkg) : List Stamp → List Cmd → Prop
  | _, [] => True
  | done, .stamp s :: cmds => (∀ r ∈ requires p s, r ∈ done) ∧ Ordered p (s :: done) cmds
  | done, .run _ :: cmds => Ordered p done cmds
  | _, _ => False

theorem removing_removals (p : Pkg) (g : Goal) : Removing (removals p g) := by
  rcases p with ⟨_, _ | _, _, _, _⟩ <;> cases g <;>
    simp [Removing, removals, recipe]

theorem ordered_steps (p : Pkg) : Ordered p [] (steps p) := by
  rcases p with ⟨_ | _, _ | _, _ | _, _ | _, _ | _⟩ <;>
    simp [steps, buildSteps, installStamps, Ordered, requires]

theorem Ordered.take {p : Pkg} {cmds : List Cmd} {done : List Stamp} (h : Ordered p done cmds)
    (k : Nat) : Ordered p done (cmds.take k) := by
  induction cmds generalizing done k with
  | nil => simpa using h
  | cons c cmds ih =>
    cases k with
    | zero => trivial
    | succ k =>
      cases c with
      | stamp s => exact ⟨h.1, ih h.2 k⟩
      | run c => exact @ih done h k
      | rm s => exact h.elim
      | rmDir => exact h.elim

theorem Ordered.not_rm {p : Pkg} {cmds : List Cmd} {done : List Stamp} (h : Ordered p done cmds) :
    (∀ s, .rm s ∉ cmds) ∧ .rmDir ∉ cmds := by
  induction cmds generalizing done with
  | nil => simp
  | cons c cmds ih =>
    cases c with
    | stamp s => simpa using ih h.2
    | run c => simpa using @ih done h
    | rm s => exact h.elim
    | rmDir => exact h.elim

/-- `.stamp_configured` is removed after `.stamp_built`. -/
theorem rm_built_of_rm_configured {p : Pkg} {g : Goal} {k : Nat}
    (h : .rm .configured ∈ (removals p g).take k) : .rm .built ∈ (removals p g).take k := by
  have hrec : .rm .configured ∉ recipe p .cleanForRebuild := by simp [recipe]
  have hbuilt : .rm .built ∈ recipe p .cleanForRebuild := by simp [recipe]
  have happend : .rm .configured ∈
      (recipe p .cleanForRebuild ++ recipe p .cleanForReconfigure).take k →
      .rm .built ∈ (recipe p .cleanForRebuild ++ recipe p .cleanForReconfigure).take k := by
    rw [List.take_append, List.mem_append, List.mem_append]
    rintro (h | h)
    · exact absurd (List.mem_of_mem_take h) hrec
    · have hk : 0 < k - (recipe p .cleanForRebuild).length := by
        rw [Nat.pos_iff_ne_zero]
        intro h0
        simp [h0] at h
      exact .inl (by rwa [List.take_of_length_le (by omega)])
  cases g with
  | reconfigure => exact happend h
  | cleanForReconfigure => exact happend h
  | _ => exact absurd (List.mem_of_mem_take h) (by simp [removals, recipe])

/-- Of the stamps that others require, only two are ever removed by name. -/
theorem rm_of_mem_removals {p : Pkg} {g : Goal} {s r : Stamp} (hr : r ∈ requires p s)
    (h : .rm r ∈ removals p g) : s = .built ∧ r = .configured ∨ r = .built := by
  rcases p with ⟨_, _ | _, _, _, _⟩ <;> cases s <;> simp [requires] at hr <;>
    cases g <;> simp [removals, recipe] at h <;> grind

/-! ### What the commands do to the stamps -/

theorem mem_foldl_removing {cmds : List Cmd} (hcmds : Removing cmds) (st : State) (s : Stamp) :
    s ∈ (cmds.foldl exec st).stamps ↔ s ∈ st.stamps ∧ .rm s ∉ cmds ∧ .rmDir ∉ cmds := by
  induction cmds generalizing st with
  | nil => simp
  | cons c cmds ih =>
    rw [List.foldl_cons, ih fun c hc => hcmds c (List.mem_cons_of_mem _ hc)]
    cases c with
    | stamp t => exact absurd rfl (hcmds _ (List.mem_cons_self ..) t)
    | rm t => simp only [exec, Finset.mem_erase, List.mem_cons, Cmd.rm.injEq]; grind
    | rmDir => simp [exec]
    | run c => simp [exec]

theorem Chain.foldl_ordered {p : Pkg} {cmds : List Cmd} {done : List Stamp} {st : State}
    (hcmds : Ordered p done cmds) (hdone : ∀ s ∈ done, s ∈ st.stamps) (h : Chain p st.stamps) :
    Chain p (cmds.foldl exec st).stamps := by
  induction cmds generalizing st done with
  | nil => exact h
  | cons c cmds ih =>
    cases c with
    | rm s => exact hcmds.elim
    | rmDir => exact hcmds.elim
    | run c => exact @ih done _ hcmds hdone h
    | stamp s =>
      have hs : (exec st (.stamp s)).stamps = insert s st.stamps := by
        simp only [exec]
        split
        · exact (Finset.insert_eq_of_mem ‹_›).symm
        · rfl
      refine ih hcmds.2 (fun t ht => ?_) fun t ht r hr => ?_ <;> rw [hs, Finset.mem_insert] at *
      · exact (List.mem_cons.mp ht).imp id (hdone t)
      · rcases ht with rfl | ht
        · exact .inr (hdone r (hcmds.1 r hr))
        · exact .inr (h t ht r hr)

theorem mem_foldl_ordered {p : Pkg} {cmds : List Cmd} {done : List Stamp} {st : State} {s : Stamp}
    (hcmds : Ordered p done cmds) (h : .stamp s ∈ cmds ∨ s ∈ st.stamps) :
    s ∈ (cmds.foldl exec st).stamps := by
  induction cmds generalizing st done with
  | nil => simpa using h
  | cons c cmds ih =>
    cases c with
    | rm s => exact hcmds.elim
    | rmDir => exact hcmds.elim
    | run c => exact @ih done _ hcmds (by simpa [exec] using h)
    | stamp t =>
      refine ih hcmds.2 ?_
      rw [List.mem_cons, Cmd.stamp.injEq] at h
      simp only [exec]
      rcases h with (rfl | h) | h
      · exact .inr (by split <;> simp_all)
      · exact .inl h
      · exact .inr (by split <;> simp_all)

theorem foldl_removing_ran {cmds : List Cmd} (hcmds : Removing cmds) (st : State) :
    (cmds.foldl exec st).ran = st.ran := by
  induction cmds generalizing st with
  | nil => rfl
  | cons c cmds ih =>
    rw [List.foldl_cons, ih fun c hc => hcmds c (List.mem_cons_of_mem _ hc)]
    cases c with
    | stamp s => exact absurd rfl (hcmds _ (List.mem_cons_self ..) s)
    | _ => rfl

/-- From `st` on, every stamp of `st'` that `st` has not was made by running its step. -/
def Grew (st st' : State) : Prop :=
  ∃ ran, st'.ran = st.ran ++ ran ∧ ∀ s ∈ st'.stamps, s ∈ st.stamps ∨ s ∈ ran

namespace Grew

theorem refl (st : State) : Grew st st := ⟨[], by simp, fun _ hs => .inl hs⟩

theorem trans {st st' st'' : State} (h : Grew st st') (h' : Grew st' st'') : Grew st st'' := by
  obtain ⟨ran, hran, h⟩ := h
  obtain ⟨ran', hran', h'⟩ := h'
  refine ⟨ran ++ ran', by rw [hran', hran, List.append_assoc], fun s hs => ?_⟩
  rcases h' s hs with hs | hs
  · exact (h s hs).imp_right (List.mem_append_left _)
  · exact .inr (List.mem_append_right _ hs)

theorem exec (st : State) (c : Cmd) : Grew st (exec st c) := by
  cases c with
  | stamp s =>
    simp only [Stamps.exec]
    split
    · exact refl st
    · exact ⟨[s], rfl, fun t ht => by simpa [or_comm] using ht⟩
  | rm s => exact ⟨[], by simp [Stamps.exec], fun t ht => .inl (Finset.mem_of_mem_erase ht)⟩
  | rmDir => exact ⟨[], by simp [Stamps.exec], fun t ht => by simp [Stamps.exec] at ht⟩
  | run c => exact refl st

theorem foldl (st : State) (cmds : List Cmd) : Grew st (cmds.foldl Stamps.exec st) := by
  induction cmds generalizing st with
  | nil => exact refl st
  | cons c cmds ih => exact (exec st c).trans (ih _)

theorem make (p : Pkg) (st : State) (i : Invocation) : Grew st (make p st i) := by
  obtain ⟨ran, hran, h⟩ := foldl st (i.executed p)
  refine ⟨ran, hran, fun s hs => h s ?_⟩
  simp only [Stamps.make, Invocation.leave] at hs
  split at hs
  · exact hs
  · split at hs
    · exact (Finset.mem_inter.mp hs).1
    · exact hs

theorem final (p : Pkg) (st : State) (es : List Invocation) :
    Grew st (final (Stamps.make p) st es) := by
  induction es generalizing st with
  | nil => exact refl st
  | cons e es ih => exact (make p st e).trans (ih _)

end Grew

/-! ### One invocation -/

/-- No stamp loses the stamps it requires: where `.stamp_built` is removed every install stamp is
removed too, and a recursive removal does not fail midway with a stamp left over. -/
structure Safe (p : Pkg) (st : State) (i : Invocation) : Prop where
  built : .rm .built ∈ i.executed p →
    ∀ s ∈ st.stamps, .built ∈ requires p s → .rm s ∈ i.executed p
  dir : i.goal = .dirclean → Chain p (i.leave p st.stamps)

theorem executed_eq (p : Pkg) (i : Invocation) :
    ∃ k made, i.executed p = (removals p i.goal).take k ++ made ∧ Ordered p [] made ∧
      (∀ c ∈ made, c ∈ steps p) ∧
      (made ≠ [] → i.goal.makesPkg ∧ (removals p i.goal).take k = removals p i.goal) := by
  rcases i with ⟨g, _ | ⟨k, left⟩⟩ <;> simp only [Invocation.executed, plan_eq]
  · refine ⟨(removals p g).length, _, by rw [List.take_length], ?_, ?_, ?_⟩ <;>
      split <;> simp_all [ordered_steps, Ordered]
  · refine ⟨k, _, List.take_append, Ordered.take ?_ _, fun c hc => ?_, fun hmade => ?_⟩
    · split
      exacts [ordered_steps p, trivial]
    · have := List.mem_of_mem_take hc
      split at this
      · exact this
      · simp at this
    · split at hmade
      · refine ⟨‹_›, List.take_of_length_le ?_⟩
        by_contra hk
        exact hmade (by rw [Nat.sub_eq_zero_of_le (by omega), List.take_zero])
      · simp at hmade

theorem requires_built {p : Pkg} {s : Stamp} :
    .built ∈ requires p s ↔
      s = .stagingInstalled ∨ s = .targetInstalled ∨ s = .imagesInstalled ∨ s = .hostInstalled := by
  cases s <;> simp [requires]

theorem leave_eq {p : Pkg} {i : Invocation} (h : i.goal ≠ .dirclean) (stamps : Finset Stamp) :
    i.leave p stamps = stamps := by
  have hdir : ∀ k : Nat, (plan p i.goal)[k]? ≠ some .rmDir := by
    intro k hk
    have hmem := List.mem_of_getElem? hk
    rw [plan_eq, List.mem_append] at hmem
    rcases hmem with hmem | hmem
    · revert h hmem
      cases i.goal <;> simp [removals, recipe]
    · split at hmem
      · exact (ordered_steps p).not_rm.2 hmem
      · simp at hmem
  unfold Invocation.leave
  split
  · rfl
  · rw [if_neg (hdir _)]

theorem chain_make_dirclean {p : Pkg} {st : State} {i : Invocation} (hi : i.goal = .dirclean)
    (h : Chain p st.stamps) : Chain p (make p st i).stamps ↔ Safe p st i := by
  have hplan : plan p .dirclean = [.rmDir] := by rw [plan_eq]; simp [removals, recipe, Goal.makesPkg]
  rcases i with ⟨_, _ | ⟨_ | k, left⟩⟩ <;> cases hi
  · refine iff_of_true ?_ ⟨?_, fun _ => h⟩ <;>
      simp [make, Invocation.executed, Invocation.leave, hplan, exec, Chain]
  · refine ⟨fun hc => ⟨?_, fun _ => ?_⟩, fun hs => ?_⟩
    · simp [Invocation.executed]
    · simpa [make, Invocation.executed] using hc
    · simpa [make, Invocation.executed] using hs.dir rfl
  · refine iff_of_true ?_ ⟨?_, fun _ => ?_⟩
    · simp [make, Invocation.executed, Invocation.leave, hplan, exec, Chain]
    · simp [Invocation.executed, hplan]
    · simpa [Invocation.leave, hplan] using h

/-- An invocation keeps the chain exactly if it is safe. -/
theorem chain_make_iff {p : Pkg} {st : State} (i : Invocation) (h : Chain p st.stamps) :
    Chain p (make p st i).stamps ↔ Safe p st i := by
  by_cases hi : i.goal = .dirclean
  · exact chain_make_dirclean hi h
  obtain ⟨k, made, hex, hord, -, hmade⟩ := executed_eq p i
  have hrem : Removing ((removals p i.goal).take k) := fun c hc =>
    removing_removals p i.goal c (List.mem_of_mem_take hc)
  have hdir : .rmDir ∉ (removals p i.goal).take k := by
    intro hd
    have := List.mem_of_mem_take hd
    revert hi this
    cases i.goal <;> simp [removals, recipe]
  have hrm : ∀ s, .rm s ∈ i.executed p ↔ .rm s ∈ (removals p i.goal).take k := by
    intro s
    rw [hex, List.mem_append]
    exact or_iff_left (hord.not_rm.1 s)
  have hmk : (make p st i).stamps = (i.executed p |>.foldl exec st).stamps := leave_eq hi _
  rw [hmk, hex, List.foldl_append]
  constructor
  · refine fun hc => ⟨fun hb s hs hsb => ?_, fun hd => absurd hd hi⟩
    rw [hrm] at hb ⊢
    by_cases hne : made = []
    · -- nothing is made after the removals: a stamp that stays has to find its requirement
      by_contra hns
      subst hne
      have hmem := hc s ((mem_foldl_removing hrem st s).mpr ⟨hs, hns, hdir⟩) .built hsb
      exact ((mem_foldl_removing hrem st .built).mp hmem).2.1 hb
    · obtain ⟨hpkg, hfull⟩ := hmade hne
      rw [hfull] at hb ⊢
      rw [requires_built] at hsb
      revert hpkg hb
      cases i.goal <;> simp [Goal.makesPkg, removals, recipe] <;> grind
  · intro hs
    refine Chain.foldl_ordered hord (by simp) fun s hs' r hr => ?_
    rw [mem_foldl_removing hrem] at hs' ⊢
    refine ⟨h s hs'.1 r hr, fun hrr => ?_, hdir⟩
    rcases rm_of_mem_removals hr (List.mem_of_mem_take hrr) with ⟨rfl, rfl⟩ | rfl
    · exact hs'.2.1 (rm_built_of_rm_configured hrr)
    · exact hs'.2.1 ((hrm s).mp (hs.built ((hrm _).mpr hrr) s hs'.1 hr))

/-- A successful `-clean`, `-dirclean`, `-clean-for-rebuild` or `-clean-for-reconfigure`. -/
def Invocation.Cleans (i : Invocation) : Prop :=
  i.stop = none ∧ (i.goal = .clean ∨ i.goal = .dirclean ∨ i.goal = .cleanForRebuild ∨
    i.goal = .cleanForReconfigure)

/-- A successful make of the package. -/
def Invocation.Makes (i : Invocation) : Prop := i.stop = none ∧ i.goal = .pkg

theorem built_requires_of_mem {p : Pkg} {s : Stamp} (h : s ∈ installStamps p) :
    .built ∈ requires p s := by
  rw [requires_built]
  simp only [installStamps] at h
  grind

/-- A safe cleaning leaves neither `.stamp_built` nor an install stamp. -/
theorem Safe.not_mem_of_cleans {p : Pkg} {st : State} {i : Invocation} (h : Safe p st i)
    (hi : i.Cleans) {s : Stamp} (hs : s = .built ∨ .built ∈ requires p s) :
    s ∉ (make p st i).stamps := by
  obtain ⟨g, stop⟩ := i
  obtain ⟨rfl, hg⟩ := hi
  have hex : Invocation.executed p ⟨g, none⟩ = removals p g := by
    rw [Invocation.executed, plan_eq, if_neg, List.append_nil]
    rcases hg with rfl | rfl | rfl | rfl <;> simp [Goal.makesPkg]
  show s ∉ (List.foldl exec st _).stamps
  rw [hex, mem_foldl_removing (removing_removals p g)]
  rintro ⟨hmem, hrm, hdir⟩
  have hb : .rm .built ∈ removals p g := by
    rcases hg with rfl | rfl | rfl | rfl <;> simp [removals, recipe] at hdir ⊢
  rcases hs with rfl | hs
  · exact hrm hb
  · exact hrm (hex ▸ h.built (hex ▸ hb) s hmem hs)

theorem mem_of_makes {p : Pkg} {i : Invocation} (st : State) (hi : i.Makes)
    (hp : installStamps p ≠ []) {s : Stamp} (hs : s = .built ∨ s ∈ installStamps p) :
    s ∈ (make p st i).stamps := by
  obtain ⟨g, stop⟩ := i
  obtain ⟨rfl, rfl⟩ := hi
  have hex : Invocation.executed p ⟨.pkg, none⟩ = steps p := by
    rw [Invocation.executed, plan_eq]; rfl
  show s ∈ (List.foldl exec st _).stamps
  rw [hex]
  refine mem_foldl_ordered (ordered_steps p) (.inl ?_)
  rw [steps, if_neg hp, List.mem_append]
  rcases hs with rfl | hs
  · exact .inl (by unfold buildSteps; split <;> simp)
  · exact .inr (List.mem_map_of_mem hs)

/-- With no install step enabled making the package makes nothing. -/
theorem make_ran_of_no_install {p : Pkg} (hp : installStamps p = []) (st : State) (i : Invocation) :
    (make p st i).ran = st.ran := by
  obtain ⟨k, made, hex, -, hsteps, -⟩ := executed_eq p i
  have hmade : made = [] := by
    rw [steps, if_pos hp] at hsteps
    exact List.eq_nil_iff_forall_not_mem.mpr fun c hc => by simpa using hsteps c hc
  show (List.foldl exec st _).ran = _
  rw [hex, hmade, List.append_nil]
  exact foldl_removing_ran (fun c hc => removing_removals p _ c (List.mem_of_mem_take hc)) st

/-! ### Runs -/

/-- Once the package is cleaned and then made, its build and all its enabled install steps have run
since the cleaning. -/
def Remade (p : Pkg) (es : List Invocation) : Prop :=
  ∀ pre c mid m post, es = pre ++ c :: (mid ++ m :: post) → c.Cleans → m.Makes →
    ∃ ran, (final (make p) {} (pre ++ c :: (mid ++ [m]))).ran =
        (final (make p) {} (pre ++ [c])).ran ++ ran ∧
      .built ∈ ran ∧ ∀ s ∈ installStamps p, s ∈ ran

/-- The chain holds after every invocation, and what was cleaned is made again. -/
def StampsKept (p : Pkg) (es : List Invocation) : Prop :=
  Along (make p) (fun st i => Chain p (make p st i).stamps) {} es ∧ Remade p es

theorem along_chain_iff (p : Pkg) (es : List Invocation) :
    Along (make p) (fun st i => Chain p (make p st i).stamps) {} es ↔
      Along (make p) (Safe p) {} es := by
  have hstep : ∀ st i, Chain p st.stamps → Safe p st i → Chain p (make p st i).stamps :=
    fun _ i h hs => (chain_make_iff i h).mpr hs
  have hstart : Chain p ({} : State).stamps := by simp [Chain]
  exact along_iff_of_inv (fun _ i h => chain_make_iff i h) hstep hstart

theorem remade_of_safe {p : Pkg} {es : List Invocation} (h : Along (make p) (Safe p) {} es)
    (hp : installStamps p ≠ []) : Remade p es := by
  rintro pre c mid m post rfl hc hm
  have hsafe := (along_append.mp h).2.1
  set st := final (make p) {} pre
  have hclean : final (make p) {} (pre ++ [c]) = make p st c := by rw [final_append]; rfl
  have hlast : final (make p) {} (pre ++ c :: (mid ++ [m])) =
      make p (final (make p) (make p st c) mid) m := by
    rw [final_append, final_cons, final_append]; rfl
  obtain ⟨ran, hran, hnew⟩ :=
    (Grew.final p (make p st c) mid).trans (Grew.make p (final (make p) (make p st c) mid) m)
  rw [hclean, hlast]
  have hmem : ∀ s, s = .built ∨ s ∈ installStamps p → s ∈ ran := fun s hs =>
    (hnew s (mem_of_makes _ hm hp hs)).resolve_left
      (hsafe.not_mem_of_cleans hc (hs.imp_right built_requires_of_mem))
  exact ⟨ran, hran, hmem _ (.inl rfl), fun s hs => hmem s (.inr hs)⟩

theorem final_ran_of_no_install {p : Pkg} (hp : installStamps p = []) (st : State)
    (es : List Invocation) : (final (make p) st es).ran = st.ran := by
  induction es generalizing st with
  | nil => rfl
  | cons i es ih => rw [final_cons, ih, make_ran_of_no_install hp]

/-- Runs keep the stamps in order exactly if every invocation is safe and a package with no install
step at all is not expected to be made again after a cleaning. -/
theorem run_stampsKept_iff (p : Pkg) (es : List Invocation) :
    StampsKept p es ↔ Along (make p) (Safe p) {} es ∧
      (installStamps p = [] → ∀ pre c mid m post, es = pre ++ c :: (mid ++ m :: post) →
        c.Cleans → ¬ m.Makes) := by
  rw [StampsKept, along_chain_iff]
  refine and_congr_right fun hsafe => ⟨fun h hp pre c mid m post hes hc hm => ?_, fun h => ?_⟩
  · obtain ⟨ran, hran, hb, -⟩ := h pre c mid m post hes hc hm
    rw [final_ran_of_no_install hp, final_ran_of_no_install hp] at hran
    rw [List.nil_append] at hran
    rw [← hran] at hb
    exact absurd hb List.not_mem_nil
  · by_cases hp : installStamps p = []
    · exact fun pre c mid m post hes hc hm => absurd hm (h hp pre c mid m post hes hc)
    · exact remade_of_safe hsafe hp

/-- A target package with images, made and then cleaned. -/
theorem not_stampsKept_images :
    ¬ StampsKept ⟨.target, false, false, true, true⟩ [⟨.pkg, none⟩, ⟨.clean, none⟩] := by
  intro h
  exact absurd h.1.2.1 (by decide)

end Dir842.Stamps
