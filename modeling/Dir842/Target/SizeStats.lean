import Dir842.Lib.FileTree
import Dir842.Lib.Registry
import Dir842.Lib.Run

/-!
# The sizes of the packages in the target (`size-stats-squash`)

The script measures the target without the files of each package in turn. It works in the target
tree itself, which it copies to `target_backup` before and copies back behind. A run may stop in
any of its commands: the command fails, or the run is interrupted.
-/

namespace Dir842.SizeStats
open FileTree Run

inductive Which
  | target
  /-- `target_backup` -/
  | backup
deriving DecidableEq

abbrev Fs := Which → Option Tree

/-! ### Where the paths of the script lead -/

/-- The rest of the file system, in which the two trees are. -/
structure Site where
  builddir : Path
  outside : Path → Option Node

inductive Loc
  | tree (w : Which) (p : Path)
  | outside (p : Path)

namespace Site
variable (site : Site)

def places : Places Loc where
  root := .outside []
  child
    | .tree w p, x => .tree w (p ++ [x])
    | .outside p, x =>
      if p = site.builddir ∧ x = "target" then .tree .target []
      else if p = site.builddir ∧ x = "target_backup" then .tree .backup []
      else .outside (p ++ [x])
  parent
    | .tree w p => if p = [] then .outside site.builddir else .tree w p.dropLast
    | .outside p => .outside p.dropLast

def look (fs : Fs) : Loc → Option Node
  | .tree w p => (fs w).bind fun t => if p = [] then some .dir else t p
  | .outside p => site.outside p

/-- The place of a path in `target`, by at most 40 links; with `nofollow` that of the link itself if
it ends in one. -/
def find (fs : Fs) (nofollow : Bool) (p : Path) : Option Loc :=
  walk site.places (site.look fs) nofollow 40 (site.places.origin (.tree .target []) p) p

end Site

/-- How far the command in which a run stops has come. -/
inductive Stage
  | before
  /-- A removal has removed the paths `gone`, and a copy has come to `progress`. -/
  | within (gone : Path → Bool) (progress : Path → Tree.Progress)

/-- A run that stops has done `after` commands. -/
structure Stop where
  after : Nat
  stage : Stage

/-- A run in progress, with the stop ahead of it. -/
structure Machine where
  fs : Fs
  stop : Option Stop

/-! ### The commands -/

structure Command where
  /-- The error is what is there when the command itself raises. -/
  full : Fs → Except Fs Fs
  part : Stage → Fs → Fs

def Command.run (c : Command) (m : Machine) : Except Fs Machine :=
  match m.stop with
  | none => (c.full m.fs).map fun fs => ⟨fs, none⟩
  | some ⟨0, stage⟩ => .error (c.part stage m.fs)
  | some ⟨n + 1, stage⟩ => (c.full m.fs).map fun fs => ⟨fs, some ⟨n, stage⟩⟩

def rmtreePart (w : Which) : Stage → Fs → Fs
  | .before, fs => fs
  | .within gone _, fs => Function.update fs w ((fs w).map (·.remove gone))

/-- `shutil.rmtree`, where the tree exists. -/
def rmtreeIf (w : Which) : Command where
  full fs := .ok (Function.update fs w none)
  part := rmtreePart w

def rmtree (w : Which) : Command where
  full fs := if (fs w).isSome then .ok (Function.update fs w none) else .error fs
  part := rmtreePart w

/-- `shutil.copytree`, which makes the directory that it copies to. -/
def copytree (src dst : Which) : Command where
  full fs :=
    match fs src, fs dst with
    | some t, none => .ok (Function.update fs dst (some t))
    | _, _ => .error fs
  part stage fs :=
    match stage, fs src, fs dst with
    | .within _ progress, some t, none => Function.update fs dst (some (t.copy progress))
    | _, _, _ => fs

def removeAt (gone : Path → Path → Bool) : Loc → Fs → Fs
  | .tree w q, fs => Function.update fs w ((fs w).map (·.remove (gone q)))
  | .outside _, fs => fs

/-- `os.remove` of what a path leads to, where it exists. -/
def remove (site : Site) (p : Path) : Command where
  full fs :=
    match site.find fs false p, site.find fs true p with
    | some _, some loc =>
      if site.look fs loc = some .dir then .error fs
      else .ok (removeAt (fun q p => p = q) loc fs)
    | _, _ => .ok fs
  part _ fs := fs

def modpath : Path := ["lib", "modules"]

/-- A recursive removal, which may take the build directory with it. -/
def removeTree (site : Site) (gone : Path → Bool) : Loc → Fs → Fs
  | .tree w q, fs => removeAt (fun q p => q.isPrefixOf p && gone p) (.tree w q) fs
  | .outside q, fs =>
    if q.isPrefixOf site.builddir then fun w => (fs w).map (·.remove gone) else fs

/-- `shutil.rmtree` of the kernel modules. -/
def rmModules (site : Site) : Command where
  full fs :=
    match site.find fs true modpath with
    | some loc =>
      if site.look fs loc = some .dir then .ok (removeTree site (fun _ => true) loc fs)
      else .error fs
    | none => .error fs
  part stage fs :=
    match stage, site.find fs true modpath with
    | .within gone _, some loc =>
      if site.look fs loc = some .dir then removeTree site gone loc fs else fs
    | _, _ => fs

/-- Reading, running `mksquashfs` and writing elsewhere. -/
def elsewhere : Command where
  full fs := .ok fs
  part _ fs := fs

/-! ### The script -/

def backupTarget (m : Machine) : Except Fs Machine := do
  let m ← (rmtreeIf .backup).run m
  (copytree .target .backup).run m

abbrev PkgDict := List (String × List Path)

/-- A line of `packages-file-list.txt`: the package and what is between the slashes of the path. -/
abbrev FileLine := String × Path

def isLink : Option Node → Bool
  | some (.link _) => true
  | _ => false

def addFile (site : Site) (fs : Fs) (d : PkgDict) (l : FileLine) : PkgDict :=
  if (site.find fs false l.2).isNone then d
  else if isLink ((site.find fs true l.2).bind (site.look fs)) then d
  else
    Registry.update Prod.fst (fun pkg => (pkg, []))
      l.1 (fun e => (e.1, if l.2 ∈ e.2 then e.2 else e.2 ++ [l.2])) d

def buildPackageDict (site : Site) (lines : List FileLine) (fs : Fs) : PkgDict :=
  lines.foldl (addFile site fs) []

section
variable (site : Site)

/-- One round of `build_package_size`. -/
def packageSize (m : Machine) (files : List Path) : Except Fs Machine := do
  let m ← (rmtreeIf .target).run m
  let m ← (copytree .backup .target).run m
  let m ← files.foldlM (fun m p => (remove site p).run m) m
  elsewhere.run m

def buildPackageSize (pkgdict : PkgDict) (m : Machine) : Except Fs Machine :=
  pkgdict.foldlM (fun m e => packageSize site m e.2) m

def modulesSize (m : Machine) : Except Fs Machine := do
  let m ← (rmtreeIf .target).run m
  let m ← (copytree .backup .target).run m
  let m ← (rmModules site).run m
  elsewhere.run m

/-- `get_kernel_modules_size` looks for the modules in what the last round left. -/
def getKernelModulesSize (m : Machine) : Except Fs Machine :=
  if (site.find m.fs false modpath).isSome then modulesSize site m else .ok m

end

def restoreTarget (m : Machine) : Except Fs Machine := do
  let m ← (rmtreeIf .target).run m
  let m ← (copytree .backup .target).run m
  (rmtree .backup).run m

/-- A run of the script. -/
structure Call where
  /-- `packages-file-list.txt` -/
  lines : List FileLine
  /-- The order in which a set of paths is gone through. -/
  order : List Path → List Path
  perm : ∀ l, (order l).Perm l
  stop : Option Stop

section
variable (site : Site)

def measure (c : Call) (m : Machine) : Except Fs Machine := do
  let m ← elsewhere.run m
  let m ← elsewhere.run m
  let pkgdict := (buildPackageDict site c.lines m.fs).map fun e => (e.1, c.order e.2)
  let m ← buildPackageSize site pkgdict m
  let m ← getKernelModulesSize site m
  elsewhere.run m

def sizeStats (c : Call) (fs : Fs) : Except Fs Fs := do
  let m ← backupTarget ⟨fs, c.stop⟩
  let m ← measure site c m
  let m ← restoreTarget m
  pure m.fs

/-- What is there after a run. -/
def step (fs : Fs) (c : Call) : Fs :=
  match sizeStats site c fs with
  | .ok fs => fs
  | .error fs => fs

end

theorem copytree_part (src dst : Which) (stage : Stage) (fs : Fs) :
    ∃ t, (copytree src dst).part stage fs = Function.update fs dst t := by
  unfold copytree
  dsimp only
  split
  · exact ⟨_, rfl⟩
  · exact ⟨fs dst, (Function.update_eq_self dst fs).symm⟩

theorem copytree_part_of_ne {src dst w : Which} (hw : w ≠ dst) (stage : Stage) (fs : Fs) :
    (copytree src dst).part stage fs w = fs w := by
  obtain ⟨t, ht⟩ := copytree_part src dst stage fs
  rw [ht, Function.update_of_ne hw]

/-! ### What the commands keep -/

/-- The command keeps `P`, wherever it stops. -/
structure Command.Keeps (P : Fs → Prop) (c : Command) : Prop where
  full : ∀ fs, P fs → Ends P P (c.full fs)
  part : ∀ stage fs, P fs → P (c.part stage fs)

theorem Command.ends_run {I A : Fs → Prop} (c : Command) (m : Machine)
    (hfull : Ends I A (c.full m.fs)) (hpart : ∀ stage, A (c.part stage m.fs)) :
    Ends (fun m => I m.fs) A (c.run m) := by
  have hmap : ∀ stop, Ends (fun m : Machine => I m.fs) A
      ((c.full m.fs).map fun fs => ⟨fs, stop⟩) := by
    intro stop
    revert hfull
    cases c.full m.fs <;> exact id
  unfold Command.run
  split
  · exact hmap none
  · exact hpart _
  · exact hmap _

theorem Command.Keeps.run {P : Fs → Prop} {c : Command} (h : c.Keeps P) (m : Machine)
    (hm : P m.fs) : Ends (fun m => P m.fs) P (c.run m) :=
  c.ends_run m (h.full m.fs hm) fun stage => h.part stage m.fs hm

theorem Command.Keeps.and {P Q : Fs → Prop} {c : Command} (hP : c.Keeps P) (hQ : c.Keeps Q) :
    c.Keeps fun fs => P fs ∧ Q fs := by
  refine ⟨fun fs h => ?_, fun stage fs h => ⟨hP.part stage fs h.1, hQ.part stage fs h.2⟩⟩
  have hends := And.intro (hP.full fs h.1) (hQ.full fs h.2)
  revert hends
  cases c.full fs <;> exact id

/-- The commands between the backup and the restoring keep `P`, where they remove what the paths
`ok` lead to. -/
structure Inner (site : Site) (ok : Path → Prop) (P : Fs → Prop) : Prop where
  rmtreeIf : (rmtreeIf .target).Keeps P
  copytree : (copytree .backup .target).Keeps P
  remove : ∀ p, ok p → (remove site p).Keeps P
  rmModules : (rmModules site).Keeps P

theorem keeps_elsewhere (P : Fs → Prop) : elsewhere.Keeps P := ⟨fun _ h => h, fun _ _ h => h⟩

theorem mem_addFile {site : Site} {fs : Fs} {ok : Path → Prop} {d : PkgDict} {l : FileLine}
    (hd : ∀ e ∈ d, ∀ p ∈ e.2, ok p) (hl : ok l.2) : ∀ e ∈ addFile site fs d l, ∀ p ∈ e.2, ok p := by
  unfold addFile
  split
  · exact hd
  split
  · exact hd
  refine Registry.forall_update hd (fun e he p hp => ?_) fun p hp => ?_
  · dsimp only at hp
    split at hp
    · exact he p hp
    · rcases List.mem_append.mp hp with hp | hp
      · exact he p hp
      · exact List.mem_singleton.mp hp ▸ hl
  · dsimp only at hp
    rw [if_neg List.not_mem_nil, List.nil_append, List.mem_singleton] at hp
    exact hp ▸ hl

/-- The paths of the packages are those of the lines. -/
theorem mem_buildPackageDict (site : Site) (fs : Fs) {ok : Path → Prop} {lines : List FileLine}
    (hlines : ∀ l ∈ lines, ok l.2) :
    ∀ e ∈ buildPackageDict site lines fs, ∀ p ∈ e.2, ok p := by
  have hfold : ∀ d : PkgDict, (∀ e ∈ d, ∀ p ∈ e.2, ok p) →
      ∀ e ∈ lines.foldl (addFile site fs) d, ∀ p ∈ e.2, ok p := by
    induction lines with
    | nil => exact fun _ hd => hd
    | cons l lines ih =>
      obtain ⟨hl, hlines⟩ := List.forall_mem_cons.mp hlines
      exact fun d hd => ih hlines _ (mem_addFile hd hl)
  exact hfold [] nofun

section Inner
variable {site : Site} {ok : Path → Prop} {P : Fs → Prop} (h : Inner site ok P)
include h

theorem Inner.packageSize {files : List Path} (hfiles : ∀ p ∈ files, ok p) (m : Machine)
    (hm : P m.fs) : Ends (fun m => P m.fs) P (packageSize site m files) := by
  refine (h.rmtreeIf.run m hm).bind fun m hm => ?_
  refine (h.copytree.run m hm).bind fun m hm => ?_
  refine (Ends.foldlM files (fun m p hp hm => (h.remove p (hfiles p hp)).run m hm)
    hm).bind fun m hm => ?_
  exact (keeps_elsewhere P).run m hm

theorem Inner.modulesSize (m : Machine) (hm : P m.fs) :
    Ends (fun m => P m.fs) P (modulesSize site m) := by
  refine (h.rmtreeIf.run m hm).bind fun m hm => ?_
  refine (h.copytree.run m hm).bind fun m hm => ?_
  refine (h.rmModules.run m hm).bind fun m hm => ?_
  exact (keeps_elsewhere P).run m hm

theorem Inner.measure {c : Call} (hlines : ∀ l ∈ c.lines, ok l.2) (m : Machine) (hm : P m.fs) :
    Ends (fun m => P m.fs) P (measure site c m) := by
  refine ((keeps_elsewhere P).run m hm).bind fun m hm => ?_
  refine ((keeps_elsewhere P).run m hm).bind fun m hm => ?_
  have hfiles : ∀ e ∈ (buildPackageDict site c.lines m.fs).map fun e => (e.1, c.order e.2),
      ∀ p ∈ e.2, ok p := by
    intro e he p hp
    obtain ⟨e, hmem, rfl⟩ := List.mem_map.mp he
    exact mem_buildPackageDict site m.fs hlines e hmem p ((c.perm e.2).mem_iff.mp hp)
  refine (Ends.foldlM _ (fun m e he hm => h.packageSize (hfiles e he) m hm)
    hm).bind fun m hm => ?_
  have hmodules : Ends (fun m => P m.fs) P (getKernelModulesSize site m) := by
    unfold getKernelModulesSize
    split
    · exact h.modulesSize m hm
    · exact hm
  exact hmodules.bind fun m hm => (keeps_elsewhere P).run m hm

end Inner

/-! ### What is below a tree stays below it -/

/-- Nothing is there that is not left of the tree `b`. -/
def Below (b : Option Tree) (fs : Fs) : Prop := ∀ w, ∀ t ∈ fs w, ∃ u ∈ b, t ≤ u

theorem Below.update {b : Option Tree} {fs : Fs} (h : Below b fs) {w : Which} {t : Option Tree}
    (ht : ∀ s ∈ t, ∃ u ∈ b, s ≤ u) : Below b (Function.update fs w t) := by
  intro w' s hs
  by_cases hw : w' = w
  · subst hw
    rw [Function.update_self] at hs
    exact ht s hs
  · rw [Function.update_of_ne hw] at hs
    exact h w' s hs

theorem Below.remove {b : Option Tree} {fs : Fs} (h : Below b fs) (w : Which)
    (gone : Path → Bool) : Below b (Function.update fs w ((fs w).map (·.remove gone))) := by
  refine h.update fun s hs => ?_
  obtain ⟨t, ht, rfl⟩ := Option.map_eq_some_iff.mp hs
  obtain ⟨u, hu, hle⟩ := h w t ht
  exact ⟨u, hu, (t.remove_le gone).trans hle⟩

theorem below_rmtreePart {b : Option Tree} (w : Which) (stage : Stage) (fs : Fs) (h : Below b fs) :
    Below b (rmtreePart w stage fs) := by
  cases stage with
  | before => exact h
  | within gone _ => exact h.remove w gone

theorem keeps_rmtreeIf {b : Option Tree} (w : Which) : (rmtreeIf w).Keeps (Below b) :=
  ⟨fun _ h => h.update nofun, below_rmtreePart w⟩

theorem keeps_rmtree {b : Option Tree} (w : Which) : (rmtree w).Keeps (Below b) := by
  refine ⟨fun fs h => ?_, below_rmtreePart w⟩
  unfold rmtree
  dsimp only
  split
  · exact h.update nofun
  · exact h

theorem keeps_copytree {b : Option Tree} (src dst : Which) :
    (copytree src dst).Keeps (Below b) := by
  constructor
  · intro fs h
    unfold copytree
    dsimp only
    split
    · rename_i t hsrc _
      refine h.update fun s hs => ?_
      obtain rfl := Option.some.inj hs
      exact h src t hsrc
    · exact h
  · intro stage fs h
    unfold copytree
    dsimp only
    split
    · rename_i progress t hsrc _
      refine h.update fun s hs => ?_
      obtain rfl := Option.some.inj hs
      obtain ⟨u, hu, hle⟩ := h src t hsrc
      exact ⟨u, hu, (t.copy_le progress).trans hle⟩
    · exact h

theorem Below.removeAt {b : Option Tree} {fs : Fs} (h : Below b fs) (gone : Path → Path → Bool)
    (loc : Loc) : Below b (removeAt gone loc fs) := by
  cases loc with
  | tree w q => exact h.remove w _
  | outside q => exact h

theorem Below.removeTree {b : Option Tree} {fs : Fs} (h : Below b fs) (site : Site)
    (gone : Path → Bool) (loc : Loc) : Below b (removeTree site gone loc fs) := by
  cases loc with
  | tree w q => exact h.removeAt (fun q p => q.isPrefixOf p && gone p) (.tree w q)
  | outside q =>
    show Below b (if _ then _ else _)
    split
    · intro w s hs
      obtain ⟨t, ht, rfl⟩ := Option.map_eq_some_iff.mp hs
      obtain ⟨u, hu, hle⟩ := h w t ht
      exact ⟨u, hu, (t.remove_le gone).trans hle⟩
    · exact h

section keeps
variable {site : Site} {P : Fs → Prop} {p : Path}

/-- A removal keeps what the change at the place that is found keeps. -/
theorem keeps_remove (h : ∀ fs loc, P fs → site.find fs true p = some loc →
    P (removeAt (fun q p => p = q) loc fs)) : (remove site p).Keeps P := by
  refine ⟨fun fs hfs => ?_, fun _ _ h => h⟩
  unfold remove
  dsimp only
  split
  · rename_i hloc
    split
    · exact hfs
    · exact h fs _ hfs hloc
  · exact hfs

theorem keeps_rmModules (h : ∀ fs gone loc, P fs → site.find fs true modpath = some loc →
    P (removeTree site gone loc fs)) : (rmModules site).Keeps P := by
  constructor
  · intro fs hfs
    unfold rmModules
    dsimp only
    split
    · rename_i hloc
      split
      · exact h fs _ _ hfs hloc
      · exact hfs
    · exact hfs
  · intro stage fs hfs
    unfold rmModules
    dsimp only
    split
    · rename_i hloc
      split
      · exact h fs _ _ hfs hloc
      · exact hfs
    · exact hfs

end keeps

theorem inner_below (site : Site) (b : Option Tree) : Inner site (fun _ => True) (Below b) where
  rmtreeIf := keeps_rmtreeIf _
  copytree := keeps_copytree _ _
  remove _ _ := keeps_remove fun _ loc h _ => h.removeAt _ loc
  rmModules := keeps_rmModules fun _ gone loc h _ => h.removeTree site gone loc

/-! ### The backup is kept -/

section backup
variable (x : Option Tree)

theorem backup_rmtreeIf : (rmtreeIf .target).Keeps fun fs => fs .backup = x := by
  refine ⟨fun _ h => h, fun stage fs h => ?_⟩
  cases stage <;> exact h

theorem backup_copytree : (copytree .backup .target).Keeps fun fs => fs .backup = x := by
  constructor
  · intro fs h
    unfold copytree
    dsimp only
    split <;> exact h
  · intro stage fs h
    rw [copytree_part_of_ne (by decide), h]

end backup

/-- The backup is the tree `t`, and the target is what is left of it. -/
def Held (t : Tree) (fs : Fs) : Prop := fs .backup = some t ∧ Below (some t) fs

/-- The tree in both places. -/
def both (t : Tree) : Fs := fun _ => some t

/-- With the tree in both places, the path leads to nothing that is not in `target`. -/
def Inside (site : Site) (t : Tree) (p : Path) : Prop :=
  ∀ loc ∈ site.find (both t) true p, ∃ q, loc = .tree .target q

/-- What the run removes is in `target`. -/
structure Call.StaysInside (site : Site) (t : Tree) (c : Call) : Prop where
  lines : ∀ l ∈ c.lines, Inside site t l.2
  modules : Inside site t modpath

/-- What is left of a tree leads nowhere else. -/
theorem find_both {site : Site} {t : Tree} {fs : Fs} (h : Below (some t) fs) {nofollow : Bool}
    {p : Path} {loc : Loc} (hloc : site.find fs nofollow p = some loc) :
    site.find (both t) nofollow p = some loc := by
  refine walk_mono (fun l n hn => ?_) 40 _ p loc hloc
  cases l with
  | tree w q =>
    obtain ⟨s, hs, hn⟩ := Option.bind_eq_some_iff.mp hn
    obtain ⟨u, hu, hle⟩ := h w s hs
    obtain rfl := Option.some.inj hu
    by_cases hq : q = []
    · rw [if_pos hq] at hn
      exact ⟨n, by simp [Site.look, both, hq, ← hn], le_rfl⟩
    · rw [if_neg hq] at hn
      obtain ⟨n', hn', hle'⟩ := hle q n hn
      exact ⟨n', by simpa [Site.look, both, hq] using hn', hle'⟩
  | outside q => exact ⟨n, hn, le_rfl⟩

theorem held_removeAt {t : Tree} {fs : Fs} (h : Held t fs) (gone : Path → Path → Bool) (q : Path) :
    Held t (removeAt gone (.tree .target q) fs) := ⟨h.1, h.2.removeAt gone _⟩

theorem held_rmtreeIf (t : Tree) : (rmtreeIf .target).Keeps (Held t) :=
  (backup_rmtreeIf _).and (keeps_rmtreeIf _)

theorem held_copytree (t : Tree) : (copytree .backup .target).Keeps (Held t) :=
  (backup_copytree _).and (keeps_copytree _ _)

theorem inner_held {site : Site} {t : Tree} (hmodules : Inside site t modpath) :
    Inner site (Inside site t) (Held t) where
  rmtreeIf := held_rmtreeIf t
  copytree := held_copytree t
  remove p hp := keeps_remove fun fs loc h hloc => by
    obtain ⟨q, rfl⟩ := hp loc (find_both h.2 hloc)
    exact held_removeAt h _ q
  rmModules := keeps_rmModules fun fs gone loc h hloc => by
    obtain ⟨q, rfl⟩ := hmodules loc (find_both h.2 hloc)
    exact held_removeAt h (fun q p => q.isPrefixOf p && gone p) q

/-! ### A run -/

theorem held_of_both {t : Tree} {fs : Fs} (htarget : fs .target = some t)
    (hbackup : fs .backup = some t) : Held t fs := by
  refine ⟨hbackup, fun w s hs => ⟨t, rfl, ?_⟩⟩
  have hw : fs w = some t := by
    cases w
    · exact htarget
    · exact hbackup
  exact (Option.some.inj (hw.symm.trans hs)).ge

theorem ends_backupTarget {t : Tree} (m : Machine) (hm : m.fs .target = some t) :
    Ends (fun m => m.fs .target = some t ∧ m.fs .backup = some t) (fun fs => fs .target = some t)
      (backupTarget m) := by
  refine ((rmtreeIf .backup).ends_run (I := fun fs => fs .target = some t ∧ fs .backup = none) m
    ⟨hm, rfl⟩ fun stage => ?_).bind fun m hm => ?_
  · cases stage <;> exact hm
  · refine (copytree .target .backup).ends_run
      (I := fun fs => fs .target = some t ∧ fs .backup = some t) m ?_ fun stage => ?_
    · unfold copytree
      dsimp only
      rw [hm.1, hm.2]
      exact ⟨hm.1, rfl⟩
    · rw [copytree_part_of_ne (by decide), hm.1]

variable {site : Site}

theorem ends_restoreTarget {t : Tree} (m : Machine) (hm : Held t m.fs) :
    Ends (fun m => m.fs .target = some t) (fun fs => fs .target = some t ∨ Held t fs)
      (restoreTarget m) := by
  refine ((rmtreeIf .target).ends_run (I := fun fs => Held t fs ∧ fs .target = none) m
    ⟨⟨hm.1, (keeps_rmtreeIf .target).full m.fs hm.2⟩, rfl⟩ fun stage =>
      .inr ((held_rmtreeIf t).part stage m.fs hm)).bind fun m hm => ?_
  refine ((copytree .backup .target).ends_run (I := fun fs => fs .target = some t) m ?_
    fun stage => .inr ((held_copytree t).part stage m.fs hm.1)).bind fun m hm => ?_
  · unfold copytree
    dsimp only
    rw [hm.1.1, hm.2]
    rfl
  · refine (rmtree .backup).ends_run (I := fun fs => fs .target = some t) m ?_ fun stage => ?_
    · unfold rmtree
      dsimp only
      split
      · exact hm
      · exact .inl hm
    · cases stage <;> exact .inl hm

/-- A run that finds the tree in `target` puts it back, or leaves it in one of the two places. -/
theorem ends_sizeStats {t : Tree} {c : Call} (hc : c.StaysInside site t) {fs : Fs}
    (h : fs .target = some t) :
    Ends (fun fs => fs .target = some t) (fun fs => fs .target = some t ∨ Held t fs)
      (sizeStats site c fs) := by
  have hbackup := (ends_backupTarget ⟨fs, c.stop⟩ h).imp (fun _ hm => hm)
    fun fs (hfs : fs .target = some t) => (.inl hfs : fs .target = some t ∨ Held t fs)
  refine hbackup.bind fun m hm => ?_
  have hmeasure := ((inner_held hc.modules).measure hc.lines m (held_of_both hm.1 hm.2)).imp (fun _ hm => hm)
    fun fs hfs => (.inr hfs : fs .target = some t ∨ Held t fs)
  exact hmeasure.bind fun m hm => (ends_restoreTarget m hm).bind fun m hm => hm

/-- What is below a tree before a run is so after it. -/
theorem below_afterBackup {b : Option Tree} (c : Call) (m : Machine) (hm : Below b m.fs) :
    Ends (Below b) (Below b) (do
      let m ← (copytree .target .backup).run m
      let m ← measure site c m
      let m ← restoreTarget m
      pure m.fs) := by
  refine ((keeps_copytree _ _).run m hm).bind fun m hm => ?_
  refine ((inner_below site b).measure (fun _ _ => trivial) m hm).bind fun m hm => ?_
  have hrestore : Ends (fun m => Below b m.fs) (Below b) (restoreTarget m) :=
    ((keeps_rmtreeIf _).run m hm).bind fun m hm =>
      ((keeps_copytree _ _).run m hm).bind fun m hm => (keeps_rmtree _).run m hm
  exact hrestore.bind fun m hm => hm

/-! ### Runs one after the other -/

/-- The tree is in `target` or in `target_backup`. -/
def Recoverable (t : Tree) (fs : Fs) : Prop := ∃ w, fs w = some t

/-- A run that completes leaves `target` as it was given it, with the tree `t` in it; and after a
run that stops `t` is still there. -/
def Right (site : Site) (t : Tree) (fs : Fs) (c : Call) : Prop :=
  Ends (fun fs' => fs' .target = some t ∧ fs' .target = fs .target) (Recoverable t)
    (sizeStats site c fs)

/-- A removal that has come to this stage has removed nothing of `t`. -/
def Stage.Spares (t : Tree) : Stage → Prop
  | .before => True
  | .within gone _ => ∀ p, gone p = true → t p = none

/-- The run finds the tree in `target`, or stops before it removes anything. -/
def Guarded (t : Tree) (fs : Fs) (c : Call) : Prop :=
  fs .target = some t ∨ ∃ stage, c.stop = some ⟨0, stage⟩ ∧ stage.Spares t

def Inv (t : Tree) (fs : Fs) : Prop := fs .target = some t ∨ Held t fs

theorem Inv.recoverable {t : Tree} {fs : Fs} (h : Inv t fs) : Recoverable t fs :=
  h.elim (fun h => ⟨_, h⟩) fun h => ⟨_, h.1⟩

theorem not_recoverable {t : Tree} {b : Option Tree} {fs : Fs} (hfs : Below b fs)
    (hb : ∀ u ∈ b, u ≤ t) (hne : b ≠ some t) : ¬ Recoverable t fs := by
  rintro ⟨w, hw⟩
  obtain ⟨u, hu, hle⟩ := hfs w t hw
  exact hne (hle.antisymm (hb u hu) ▸ hu)

theorem sizeStats_stop_zero {c : Call} {stage : Stage} (hstop : c.stop = some ⟨0, stage⟩)
    (fs : Fs) : sizeStats site c fs = .error (rmtreePart .backup stage fs) := by
  unfold sizeStats backupTarget Command.run
  rw [hstop]
  rfl

/-- Without a stop in the first command the old backup is gone, and `target` is all there is. -/
theorem below_sizeStats {c : Call} (hstop : ∀ stage, c.stop ≠ some ⟨0, stage⟩) (fs : Fs) :
    Ends (Below (fs .target)) (Below (fs .target)) (sizeStats site c fs) := by
  have hbelow : Below (fs .target) (Function.update fs .backup none) := by
    intro w t hw
    cases w with
    | target => exact ⟨t, hw, le_rfl⟩
    | backup => cases hw
  obtain ⟨stop, hrm⟩ : ∃ stop, (rmtreeIf .backup).run ⟨fs, c.stop⟩ =
      .ok ⟨Function.update fs .backup none, stop⟩ := by
    unfold Command.run
    dsimp only
    split
    · exact ⟨_, rfl⟩
    · rename_i stage hzero
      exact absurd hzero (hstop stage)
    · exact ⟨_, rfl⟩
  have hrest := @below_afterBackup site _ c ⟨_, stop⟩ hbelow
  unfold sizeStats backupTarget
  rw [hrm]
  exact hrest

theorem spares_iff {t : Tree} {stage : Stage} {fs : Fs} (hbackup : fs .backup = some t) :
    rmtreePart .backup stage fs .backup = some t ↔ stage.Spares t := by
  cases stage with
  | before => exact iff_of_true hbackup trivial
  | within gone progress =>
    show (fs .backup).map (·.remove gone) = some t ↔ _
    rw [hbackup]
    exact Option.some_inj.trans Tree.remove_eq_iff

section damaged
variable {t : Tree} {fs : Fs} {c : Call} (hheld : Held t fs) (htarget : fs .target ≠ some t)
include hheld htarget

theorem right_iff_spares {stage : Stage} (hstop : c.stop = some ⟨0, stage⟩) :
    Right site t fs c ↔ stage.Spares t := by
  have hpart : rmtreePart .backup stage fs .target = fs .target := by cases stage <;> rfl
  rw [← spares_iff hheld.1, Right, sizeStats_stop_zero hstop]
  constructor
  · rintro ⟨_ | _, hw⟩
    · exact absurd (hpart.symm.trans hw) htarget
    · exact hw
  · exact fun hw => ⟨.backup, hw⟩

/-- The run takes what is left in `target` for the tree. -/
theorem not_right_of_damaged (hstop : ∀ stage, c.stop ≠ some ⟨0, stage⟩) : ¬ Right site t fs c := by
  have hle : ∀ u ∈ fs .target, u ≤ t := by
    intro u hu
    obtain ⟨u', hu', hle⟩ := hheld.2 .target u hu
    exact Option.some.inj hu' ▸ hle
  have hbelow := @below_sizeStats site c hstop fs
  unfold Right
  intro hright
  revert hbelow hright
  rcases sizeStats site c fs with fs' | fs'
  · exact fun hbelow hright => not_recoverable hbelow hle htarget hright
  · exact fun hbelow hright => not_recoverable hbelow hle htarget ⟨.target, hright.1⟩

end damaged

theorem right_iff_guarded {t : Tree} {fs : Fs} {c : Call} (hc : c.StaysInside site t) (h : Inv t fs) :
    Right site t fs c ↔ Guarded t fs c := by
  by_cases htarget : fs .target = some t
  · refine iff_of_true ?_ (.inl htarget)
    exact (ends_sizeStats hc htarget).imp (fun fs' hfs' => ⟨hfs', hfs'.trans htarget.symm⟩)
      fun _ => Inv.recoverable
  · have hheld := h.resolve_left htarget
    rw [Guarded, or_iff_right htarget]
    by_cases hstop : ∃ stage, c.stop = some ⟨0, stage⟩
    · obtain ⟨stage, hstop⟩ := hstop
      rw [right_iff_spares hheld htarget hstop]
      refine ⟨fun hspares => ⟨stage, hstop, hspares⟩, ?_⟩
      rintro ⟨stage', hstop', hspares⟩
      obtain rfl : stage = stage' := congrArg Stop.stage (Option.some.inj (hstop.symm.trans hstop'))
      exact hspares
    · refine iff_of_false (not_right_of_damaged hheld htarget (not_exists.mp hstop)) ?_
      exact fun ⟨stage, hstop', _⟩ => hstop ⟨stage, hstop'⟩

theorem inv_step {t : Tree} {fs : Fs} {c : Call} (hc : c.StaysInside site t) (h : Inv t fs)
    (hguard : Guarded t fs c) : Inv t (step site fs c) := by
  by_cases htarget : fs .target = some t
  · have hends := ends_sizeStats hc htarget
    unfold step
    revert hends
    rcases sizeStats site c fs with fs' | fs'
    · exact id
    · exact Or.inl
  · obtain ⟨stage, hstop, hspares⟩ := hguard.resolve_left htarget
    have hheld := h.resolve_left htarget
    unfold step
    rw [sizeStats_stop_zero hstop]
    exact .inr ⟨(spares_iff hheld.1).mpr hspares, below_rmtreePart _ _ _ hheld.2⟩

/-- The tree in `target`, and what an earlier run may have left. -/
def given (t : Tree) (backup : Option Tree) : Fs
  | .target => some t
  | .backup => backup

/-- Where the lists do not lead out of `target`, every run does what it should exactly if it finds
the tree in place. -/
theorem along_recoverable_iff (site : Site) (t : Tree) (backup : Option Tree) (cs : List Call)
    (hcs : ∀ c ∈ cs, c.StaysInside site t) :
    Along (step site) (Right site t) (given t backup) cs ↔
      Along (step site) (Guarded t) (given t backup) cs :=
  along_iff_of_inv_of_mem hcs (fun _ _ hc h => right_iff_guarded hc h)
    (fun _ _ hc h => inv_step hc h) (.inl rfl)

def passwd : Path := ["etc", "passwd"]

def passwdTree : Tree := fun p =>
  if p = ["etc"] then some .dir
  else if p = passwd then some (.file [114, 111, 111, 116]) else none

def outputSite : Site := ⟨["output"], fun p => if p = [] ∨ p = ["output"] then some .dir else none⟩

/-- `mksquashfs` fails in the round of the only package. -/
def failedCall : Call := ⟨[("skeleton", passwd)], id, fun _ => .rfl, some ⟨7, .before⟩⟩

/-- The next run completes. -/
def nextCall : Call := ⟨[("skeleton", passwd)], id, fun _ => .rfl, none⟩

theorem staysInside_passwd {c : Call} (hlines : ∀ l ∈ c.lines, l.2 = passwd) :
    c.StaysInside outputSite passwdTree where
  lines l hl loc hloc := by
    have hfind : outputSite.find (both passwdTree) true passwd = some (.tree .target passwd) := rfl
    rw [hlines l hl, hfind] at hloc
    exact ⟨passwd, (Option.some.inj hloc).symm⟩
  modules := nofun

theorem along_recoverable_passwd :
    Along (step outputSite) (Right outputSite passwdTree) (given passwdTree none) [nextCall] :=
  (along_recoverable_iff outputSite passwdTree none [nextCall]
    (List.forall_mem_singleton.mpr (staysInside_passwd (List.forall_mem_singleton.mpr rfl)))).mpr
    ⟨.inl rfl, trivial⟩

theorem not_along_recoverable : ¬ ∀ site t backup cs,
    Along (step site) (Right site t) (given t backup) cs := by
  intro hall
  obtain ⟨-, hright, -⟩ := hall outputSite passwdTree none [failedCall, nextCall]
  have hfailed : failedCall.StaysInside outputSite passwdTree :=
    staysInside_passwd (List.forall_mem_singleton.mpr rfl)
  have hnext : nextCall.StaysInside outputSite passwdTree :=
    staysInside_passwd (List.forall_mem_singleton.mpr rfl)
  have hinv : Inv passwdTree (step outputSite (given passwdTree none) failedCall) :=
    inv_step hfailed (.inl rfl) (.inl rfl)
  rcases (right_iff_guarded hnext hinv).mp hright with htarget | ⟨stage, hstop, -⟩
  · have hpasswd := congrArg (Option.bind · (· passwd)) htarget
    exact absurd hpasswd (by decide)
  · cases hstop

/-- A line that leads out of `target` takes a file of the backup away. -/
def strayCall : Call :=
  ⟨[("skeleton", ["..", "target_backup", "etc", "passwd"])], id, fun _ => .rfl, none⟩

example : ¬ strayCall.StaysInside outputSite passwdTree := fun h =>
  nomatch h.lines _ (List.mem_singleton_self _) (.tree .backup passwd) rfl

end Dir842.SizeStats
