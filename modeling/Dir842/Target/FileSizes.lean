import Dir842.Build.GraphBuildTime
import Dir842.Lib.Registry

/-!
# The sizes of the packages in the root filesystem (`size-stats`)

`size-stats` finds for each file of the target directory the package that it belongs to, from a
list that is written while the packages are installed, adds up the sizes of the files of each
package, and writes tables of them.
-/

namespace Dir842.FileSizes
open BuildTime (strip)

abbrev Path := List Char
abbrev Pkg := List Char

/-! ### The target directory -/

/-- What `os.walk` finds in directories apart from directories. -/
inductive Kind
  | regular (size : ℕ)
  /-- A device, a pipe or a socket, whose size is 0. -/
  | special
  | link
deriving DecidableEq

/-- `st_size` -/
def Kind.size : Kind → ℕ
  | .regular size => size
  | _ => 0

/-- The tree below `target`, by paths relative to it. -/
structure Target where
  entries : List (Path × Kind)
  nodup : (entries.map Prod.fst).Nodup
  /-- The sizes at other paths: of directories, and of what is reached through links. -/
  other : Path → Option ℕ

/-- The size at a path, if there is something, and not a link. -/
def Target.stat (t : Target) (p : Path) : Option ℕ :=
  match t.entries.lookup p with
  | some .link => none
  | some k => some k.size
  | none => t.other p

/-! ### `packages-file-list.txt` -/

/-- A line of the list. The shell has read the path, and leaves no blanks at its end. -/
structure Listing where
  pkg : Pkg
  path : Path
  not_mem_pkg : ',' ∉ pkg ∧ '\n' ∉ pkg ∧ '\r' ∉ pkg
  not_mem_path : '\n' ∉ path ∧ '\r' ∉ path
  getLast_path : ∀ c ∈ path.getLast?, Words.isSpace c = false

/-- `"$(1),$${file}"`, the file with its `./` -/
def Listing.text (l : Listing) : List Char := l.pkg ++ ',' :: '.' :: '/' :: l.path ++ ['\n']

/-- `l.split(",", 1)`; there has to be a comma. -/
def splitComma (l : List Char) : Option (List Char × List Char) :=
  match l.span (· != ',') with
  | (pkg, _ :: fpath) => some (pkg, fpath)
  | (_, []) => none

/-! ### `size-stats` -/

structure FileEntry where
  path : Path
  pkg : Pkg
  size : ℕ

abbrev FilesDict := List FileEntry

def FileEntry.new (path : Path) : FileEntry := ⟨path, [], 0⟩

def addFile (t : Target) (filesdict : FilesDict) (relpath : Path) (pkg : Pkg) : FilesDict :=
  match t.stat relpath with
  | none => filesdict
  | some sz => Registry.update FileEntry.path .new relpath (fun e => { e with pkg, size := sz })
      filesdict

/-- The body of the loop of `build_package_dict`. -/
def addLine (t : Target) (filesdict : FilesDict) (l : List Char) : Option FilesDict :=
  (splitComma l).map fun (pkg, fpath) => addFile t filesdict ((strip fpath).drop 2) pkg

/-- `none` where it raises. -/
def buildPackageDict (t : Target) (lines : List (List Char)) : Option FilesDict :=
  lines.foldlM (addLine t) []

structure PkgSize where
  name : Pkg
  size : ℕ

def PkgSize.new (name : Pkg) : PkgSize := ⟨name, 0⟩

def unknown : Pkg := "unknown".toList

/-- The package of a file that is met in the tree. -/
def pkgOf (filesdict : FilesDict) (frelpath : Path) : Pkg :=
  match Registry.lookup FileEntry.path frelpath filesdict with
  | none => unknown
  | some e => e.pkg

def addTo (f : Path × Kind) (p : PkgSize) : PkgSize := { p with size := p.size + f.2.size }

def addSize (filesdict : FilesDict) (pkgsize : List PkgSize) (f : Path × Kind) : List PkgSize :=
  if f.2 = .link then pkgsize
  else Registry.update PkgSize.name .new (pkgOf filesdict f.1) (addTo f) pkgsize

def buildPackageSize (t : Target) (filesdict : FilesDict) : List PkgSize :=
  t.entries.foldl (addSize filesdict) []

/-- `pkgsizes[pkgname]` of a dictionary with the default 0 -/
def sizeOf (pkgsizes : List PkgSize) (pkgname : Pkg) : ℕ :=
  ((Registry.lookup PkgSize.name pkgname pkgsizes).map PkgSize.size).getD 0

def total (pkgsizes : List PkgSize) : ℕ := (pkgsizes.map PkgSize.size).sum

/-- A number as `%.1f` gives it. -/
structure Percent where
  text : List Char
  isDigit_or_of_mem : ∀ c ∈ text, c.isDigit ∨ c = '.'

section
variable (percent : ℕ → ℕ → Percent)

/-- `"%.1f" % (float(size) / whole * 100)`, `none` where the division raises. -/
def ratio (size whole : ℕ) : Option Percent :=
  if whole = 0 then none else some (percent size whole)

/-- The row of a file: its path, package and size, the size of the package, and two ratios. -/
structure FileRow where
  file : FileEntry
  pkgsize : ℕ
  inPackage : Percent
  inSystem : Percent

def fileRow (pkgsizes : List PkgSize) (e : FileEntry) : Option FileRow := do
  let pkgsize := sizeOf pkgsizes e.pkg
  let inPackage ← ratio percent e.size pkgsize
  let inSystem ← ratio percent e.size (total pkgsizes)
  pure ⟨e, pkgsize, inPackage, inSystem⟩

/-- The rows of `gen_files_csv` below the header. -/
def fileRows (filesdict : FilesDict) (pkgsizes : List PkgSize) : Option (List FileRow) :=
  filesdict.mapM (fileRow percent pkgsizes)

/-- The rows of `gen_packages_csv` below the header. -/
def packageRows (pkgsizes : List PkgSize) : Option (List (PkgSize × Percent)) :=
  pkgsizes.mapM fun p => (ratio percent p.size (total pkgsizes)).map (p, ·)

def number (n : ℕ) : List Char := Nat.toDigits 10 n

def FileRow.fields (r : FileRow) : List (List Char) :=
  [r.file.path, r.file.pkg, number r.file.size, number r.pkgsize, r.inPackage.text]

def filesHeader : List (List Char) :=
  ["File name".toList, "Package name".toList, "File size".toList, "Package size".toList,
    "File size in package (%)".toList]

def filesCsv (rows : List FileRow) : List Char :=
  Csv.writeRow ',' filesHeader "File size in system (%)".toList ++
    rows.flatMap fun r => Csv.writeRow ',' r.fields r.inSystem.text

def packagesCsv (rows : List (PkgSize × Percent)) : List Char :=
  Csv.writeRow ',' ["Package name".toList, "Package size".toList]
    "Package size in system (%)".toList ++
    rows.flatMap fun r => Csv.writeRow ',' [r.1.name, number r.1.size] r.2.text

/-- The text of `--file-size-csv`, `none` where it raises. -/
def genFilesCsv (filesdict : FilesDict) (pkgsizes : List PkgSize) : Option (List Char) :=
  (fileRows percent filesdict pkgsizes).map filesCsv

/-- The text of `--package-size-csv`, `none` where it raises. -/
def genPackagesCsv (pkgsizes : List PkgSize) : Option (List Char) :=
  (packageRows percent pkgsizes).map packagesCsv

end

/-! ### The list is read -/

theorem splitComma_text (l : Listing) :
    splitComma l.text = some (l.pkg, '.' :: '/' :: l.path ++ ['\n']) := by
  have hspan : l.text.span (· != ',') = (l.pkg, ',' :: '.' :: '/' :: l.path ++ ['\n']) := by
    rw [Listing.text, List.append_assoc]
    refine Scan.span_append (fun c hc => ?_) (fun c hc => ?_)
    · exact bne_iff_ne.mpr (ne_of_mem_of_not_mem hc l.not_mem_pkg.1)
    · obtain rfl : ',' = c := Option.some.inj hc
      rfl
  rw [splitComma, hspan]
  rfl

theorem drop_strip_text (l : Listing) :
    (strip ('.' :: '/' :: l.path ++ ['\n'])).drop 2 = l.path := by
  have hhead : ∀ c ∈ ('.' :: '/' :: l.path).head?, Words.isSpace c = false :=
    fun _ hc => Option.some.inj hc ▸ rfl
  have hlast : ∀ c ∈ ('.' :: '/' :: l.path).getLast?, Words.isSpace c = false := by
    rcases hpath : l.path.getLast? with _ | a
    · rw [List.getLast?_eq_none_iff.mp hpath]
      exact fun _ hc => Option.some.inj hc ▸ rfl
    · rw [List.getLast?_cons, List.getLast?_cons, hpath]
      exact fun _ hc => Option.some.inj hc ▸ l.getLast_path a hpath
  rw [BuildTime.strip_newline (List.cons_ne_nil '.' ('/' :: l.path)) hhead hlast]
  rfl

theorem addLine_text (t : Target) (files : FilesDict) (l : Listing) :
    addLine t files l.text = some (addFile t files l.path l.pkg) := by
  rw [addLine, splitComma_text, Option.map_some]
  exact congrArg (fun p => some (addFile t files p l.pkg)) (drop_strip_text l)

/-- The listings whose path is there, with the sizes. -/
def present (t : Target) (list : List Listing) : List (Listing × ℕ) :=
  list.filterMap fun l => (t.stat l.path).map (l, ·)

def setEntry (r : Listing × ℕ) (e : FileEntry) : FileEntry :=
  { e with pkg := r.1.pkg, size := r.2 }

theorem path_new (p : Path) : (FileEntry.new p).path = p := rfl

theorem path_setEntry (r : Listing × ℕ) (e : FileEntry) : (setEntry r e).path = e.path := rfl

/-- `filesdict` after the lines. -/
def filesOf (t : Target) (list : List Listing) : FilesDict :=
  Registry.collect FileEntry.path .new (fun r => r.1.path) setEntry (present t list)

theorem buildPackageDict_eq (t : Target) (list : List Listing) :
    buildPackageDict t (list.map Listing.text) = some (filesOf t list) := by
  induction list using List.reverseRecOn with
  | nil => rfl
  | append_singleton list l ih =>
    rw [buildPackageDict] at ih ⊢
    rw [List.map_append, List.foldlM_append, ih]
    show List.foldlM (addLine t) (filesOf t list) [l.text] = _
    rw [List.foldlM_cons, addLine_text]
    show some (addFile t (filesOf t list) l.path l.pkg) = _
    rw [addFile, filesOf, filesOf, present, present, List.filterMap_append, List.filterMap_cons]
    rcases hstat : t.stat l.path with _ | sz
    · simp
    · simp only [Option.map_some, List.filterMap_nil, Registry.collect_concat]
      rfl

/-! ### Which package a file belongs to -/

def listings (list : List Listing) (p : Path) : List Listing := list.filter (·.path = p)

/-- The package that is listed last for a path, or else the unknown one. -/
def owner (list : List Listing) (p : Path) : Pkg :=
  ((listings list p).getLast?.map Listing.pkg).getD unknown

section
variable {t : Target} {list : List Listing} {p : Path}

theorem present_filter {sz : ℕ} (hstat : t.stat p = some sz) :
    (present t list).filter (·.1.path = p) = (listings list p).map (·, sz) := by
  induction list with
  | nil => rfl
  | cons l list ih =>
    rw [present, listings] at ih ⊢
    rw [List.filterMap_cons, List.filter_cons]
    by_cases hl : l.path = p
    · rw [hl, hstat, Option.map_some, List.filter_cons_of_pos (by simpa using hl), ih]
      simp
    · rcases t.stat l.path with _ | n
      · simpa [hl] using ih
      · simpa [hl] using ih

/-- Of the lines of a path the last one counts. -/
theorem foldl_setEntry (rows : List (Listing × ℕ)) (e : FileEntry) :
    rows.foldl (fun e r => setEntry r e) e =
      match rows.getLast? with
      | none => e
      | some r => ⟨e.path, r.1.pkg, r.2⟩ := by
  induction rows using List.reverseRecOn with
  | nil => rfl
  | append_singleton rows r ih =>
    rw [List.foldl_concat, ih, List.getLast?_concat]
    cases rows.getLast? <;> rfl

theorem mem_listings {l : Listing} : l ∈ listings list p ↔ l ∈ list ∧ l.path = p := by
  rw [listings, List.mem_filter, decide_eq_true_eq]

theorem getLast_listings {l : Listing} (hl : l ∈ listings list p) :
    ∃ last, (listings list p).getLast? = some last ∧ owner list p = last.pkg := by
  obtain ⟨last, hlast⟩ := Option.ne_none_iff_exists'.mp
    (mt List.getLast?_eq_none_iff.mp (List.ne_nil_of_mem hl))
  exact ⟨last, hlast, by rw [owner, hlast]; rfl⟩

/-- The entry of a path that is listed and there. -/
theorem lookup_filesOf {l : Listing} {sz : ℕ} (hl : l ∈ list) (hstat : t.stat l.path = some sz) :
    Registry.lookup FileEntry.path l.path (filesOf t list) =
      some ⟨l.path, owner list l.path, sz⟩ := by
  obtain ⟨last, hlast, howner⟩ := getLast_listings (mem_listings.mpr ⟨hl, rfl⟩)
  have hr : (l, sz) ∈ present t list :=
    List.mem_filterMap.mpr ⟨l, hl, by rw [hstat, Option.map_some]⟩
  have hlookup : Registry.lookup FileEntry.path l.path (filesOf t list) =
      some (((present t list).filter (·.1.path = l.path)).foldl (fun e r => setEntry r e)
        (.new l.path)) :=
    @Registry.lookup_collect_of_mem _ _ _ _ _ _ (fun r => r.1.path) _ path_new path_setEntry _ _ hr
  rw [hlookup, present_filter hstat, foldl_setEntry, List.getLast?_map, hlast, howner]
  rfl

theorem lookup_filesOf_none (h : ∀ l ∈ list, l.path = p → t.stat p = none) :
    Registry.lookup FileEntry.path p (filesOf t list) = none := by
  refine (Registry.lookup_collect_eq_none path_new path_setEntry).mpr fun r hr hpath => ?_
  obtain ⟨l, hl, hmap⟩ := List.mem_filterMap.mp hr
  obtain ⟨sz, hsz, rfl⟩ := Option.map_eq_some_iff.mp hmap
  obtain rfl : l.path = p := hpath
  exact Option.some_ne_none sz (hsz.symm.trans (h l hl rfl))

theorem owner_eq_unknown (h : ∀ l ∈ list, l.path ≠ p) : owner list p = unknown := by
  have hnone : listings list p = [] :=
    List.filter_eq_nil_iff.mpr fun l hl => by simpa using h l hl
  rw [owner, hnone]
  rfl

theorem pkgOf_filesOf (hstat : t.stat p ≠ none) : pkgOf (filesOf t list) p = owner list p := by
  obtain ⟨sz, hsz⟩ := Option.ne_none_iff_exists'.mp hstat
  by_cases h : ∃ l ∈ list, l.path = p
  · obtain ⟨l, hl, rfl⟩ := h
    rw [pkgOf, lookup_filesOf hl hsz]
  · have hne : ∀ l ∈ list, l.path ≠ p := fun l hl hp => h ⟨l, hl, hp⟩
    rw [pkgOf, lookup_filesOf_none fun l hl hp => absurd hp (hne l hl), owner_eq_unknown hne]

theorem nodup_filesOf (t : Target) (list : List Listing) :
    ((filesOf t list).map FileEntry.path).Nodup :=
  Registry.nodup_keys_collect path_new path_setEntry _

/-- What is in `filesdict`. -/
theorem mem_filesOf {e : FileEntry} :
    e ∈ filesOf t list ↔ ∃ l ∈ list, t.stat l.path = some e.size ∧ e.path = l.path ∧
      e.pkg = owner list l.path := by
  have hlookup := Registry.lookup_eq_some_iff (nodup_filesOf t list) (k := e.path) (p := e)
  rw [and_iff_left rfl] at hlookup
  rw [← hlookup]
  constructor
  · intro he
    by_cases h : ∃ l ∈ list, t.stat l.path ≠ none ∧ l.path = e.path
    · obtain ⟨l, hl, hstat, hpath⟩ := h
      obtain ⟨sz, hsz⟩ := Option.ne_none_iff_exists'.mp hstat
      rw [← hpath, lookup_filesOf hl hsz] at he
      obtain rfl := Option.some.inj he
      exact ⟨l, hl, hsz, rfl, rfl⟩
    · have hnone : Registry.lookup FileEntry.path e.path (filesOf t list) = none :=
        lookup_filesOf_none fun l hl hpath => by_contra fun hstat =>
          h ⟨l, hl, hpath ▸ hstat, hpath⟩
      exact absurd (hnone.symm.trans he) (Option.some_ne_none e).symm
  · rintro ⟨l, hl, hstat, hpath, hpkg⟩
    obtain ⟨path, pkg, size⟩ := e
    obtain rfl : path = l.path := hpath
    obtain rfl : pkg = owner list l.path := hpkg
    exact lookup_filesOf hl hstat

end

/-! ### The sizes of the packages -/

/-- The bytes of the regular files; of all else nothing is counted. -/
def bytes (fs : List (Path × Kind)) : ℕ := (fs.map fun f => f.2.size).sum

/-- The bytes of the files that belong to a package. -/
def bytesOf (t : Target) (list : List Listing) (pkg : Pkg) : ℕ :=
  bytes (t.entries.filter fun f => owner list f.1 = pkg)

theorem name_new (name : Pkg) : (PkgSize.new name).name = name := rfl

theorem name_addTo (f : Path × Kind) (p : PkgSize) : (addTo f p).name = p.name := rfl

theorem size_new (name : Pkg) : (PkgSize.new name).size = 0 := rfl

theorem size_addTo (f : Path × Kind) (p : PkgSize) : (addTo f p).size = p.size + f.2.size := rfl

theorem buildPackageSize_eq (t : Target) (files : FilesDict) :
    buildPackageSize t files =
      Registry.collect PkgSize.name .new (fun f => pkgOf files f.1) addTo
        (t.entries.filter (·.2 ≠ .link)) := by
  rw [Registry.collect, List.foldl_filter, buildPackageSize]
  refine congrArg (fun g => t.entries.foldl g []) (funext₂ fun sizes f => ?_)
  rw [addSize]
  by_cases hf : f.2 = .link <;> simp [hf]

theorem bytes_filter (fs : List (Path × Kind)) : bytes (fs.filter (·.2 ≠ .link)) = bytes fs := by
  induction fs with
  | nil => rfl
  | cons f fs ih =>
    rw [bytes, bytes] at ih ⊢
    by_cases hf : f.2 = .link
    · rw [List.filter_cons_of_neg (by simpa using hf), ih, List.map_cons, List.sum_cons, hf]
      exact (Nat.zero_add _).symm
    · rw [List.filter_cons_of_pos (by simpa using hf), List.map_cons, List.map_cons, List.sum_cons,
        List.sum_cons, ih]

theorem size_foldl_addTo (fs : List (Path × Kind)) (p : PkgSize) :
    (fs.foldl (fun p f => addTo f p) p).size = p.size + bytes fs := by
  induction fs generalizing p with
  | nil => rfl
  | cons f fs ih =>
    rw [List.foldl_cons, ih, bytes, bytes, List.map_cons, List.sum_cons]
    exact Nat.add_assoc ..

section
variable {t : Target} {list : List Listing}

theorem lookup_entries {f : Path × Kind} (hf : f ∈ t.entries) :
    t.entries.lookup f.1 = some f.2 := by
  obtain ⟨fs, gs, hentries⟩ := List.append_of_mem hf
  refine List.lookup_eq_some_iff.mpr ⟨fs, gs, hentries, fun g hg => ?_⟩
  have hnodup := t.nodup
  rw [hentries, List.map_append, List.nodup_append] at hnodup
  have hne := hnodup.2.2 g.1 (List.mem_map_of_mem hg) f.1 (List.mem_map_of_mem List.mem_cons_self)
  exact bne_iff_ne.mpr hne.symm

theorem stat_of_mem {f : Path × Kind} (hf : f ∈ t.entries) (hlink : f.2 ≠ .link) :
    t.stat f.1 = some f.2.size := by
  rw [Target.stat, lookup_entries hf]
  cases hkind : f.2 with
  | link => exact absurd hkind hlink
  | _ => rfl

/-- All bytes are counted, each for one package. -/
theorem total_eq_bytes (t : Target) (files : FilesDict) :
    total (buildPackageSize t files) = bytes t.entries := by
  rw [total, buildPackageSize_eq, Registry.sum_collect size_new size_addTo]
  exact bytes_filter t.entries

theorem sizeOf_eq_bytesOf (t : Target) (list : List Listing) (pkg : Pkg) :
    sizeOf (buildPackageSize t (filesOf t list)) pkg = bytesOf t list pkg := by
  have hfilter :
      (t.entries.filter (·.2 ≠ .link)).filter (fun f => pkgOf (filesOf t list) f.1 = pkg) =
        (t.entries.filter fun f => owner list f.1 = pkg).filter (·.2 ≠ .link) := by
    rw [List.filter_filter, List.filter_filter]
    refine List.filter_congr fun f hf => ?_
    by_cases hlink : f.2 = .link
    · simp [hlink]
    · have hstat := stat_of_mem hf hlink
      rw [pkgOf_filesOf (hstat ▸ Option.some_ne_none _), Bool.and_comm]
  rw [sizeOf, buildPackageSize_eq, bytesOf, ← bytes_filter, ← hfilter]
  by_cases h : ∃ f ∈ t.entries.filter (·.2 ≠ .link), pkgOf (filesOf t list) f.1 = pkg
  · obtain ⟨f, hf, rfl⟩ := h
    rw [@Registry.lookup_collect_of_mem _ _ _ _ _ _ (fun f => pkgOf (filesOf t list) f.1) _ name_new
      name_addTo _ _ hf]
    exact (size_foldl_addTo ..).trans (Nat.zero_add _)
  · have hne : ∀ f ∈ t.entries.filter (·.2 ≠ .link), pkgOf (filesOf t list) f.1 ≠ pkg :=
      fun f hf hpkg => h ⟨f, hf, hpkg⟩
    rw [(Registry.lookup_collect_eq_none name_new name_addTo).mpr hne,
      List.filter_eq_nil_iff.mpr fun f hf => by simpa using hne f hf]
    rfl

theorem nodup_names (t : Target) (files : FilesDict) :
    ((buildPackageSize t files).map PkgSize.name).Nodup := by
  rw [buildPackageSize_eq]
  exact Registry.nodup_keys_collect name_new name_addTo _

theorem bytes_ne_zero_iff {fs : List (Path × Kind)} :
    bytes fs ≠ 0 ↔ ∃ f ∈ fs, f.2.size ≠ 0 := by
  rw [bytes, ne_eq, List.sum_eq_zero_iff_forall_eq_nat, List.forall_mem_map]
  push Not
  rfl

theorem bytesOf_ne_zero_iff {pkg : Pkg} :
    bytesOf t list pkg ≠ 0 ↔ ∃ f ∈ t.entries, f.2.size ≠ 0 ∧ owner list f.1 = pkg := by
  rw [bytesOf, bytes_ne_zero_iff]
  simp only [List.mem_filter, decide_eq_true_eq, and_assoc, and_comm]

end

/-! ### What is right -/

/-- The bytes of the tree are spread over the packages, and nothing is divided by zero. -/
structure Accounts (percent : ℕ → ℕ → Percent) (t : Target) (list : List Listing)
    (files : FilesDict) (sizes : List PkgSize) : Prop where
  nodup : (sizes.map PkgSize.name).Nodup
  total_eq : total sizes = bytes t.entries
  sizeOf_eq : ∀ pkg, sizeOf sizes pkg = bytesOf t list pkg
  genFilesCsv_ne_none : genFilesCsv percent files sizes ≠ none
  genPackagesCsv_ne_none : genPackagesCsv percent sizes ≠ none

def Right (percent : ℕ → ℕ → Percent) (t : Target) (list : List Listing) : Prop :=
  ∃ files, buildPackageDict t (list.map Listing.text) = some files ∧
    Accounts percent t list files (buildPackageSize t files)

section
variable (percent : ℕ → ℕ → Percent) {t : Target} {list : List Listing}

theorem mapM_ne_none_iff {α β : Type} {f : α → Option β} (as : List α) :
    as.mapM f ≠ none ↔ ∀ a ∈ as, f a ≠ none := by
  induction as with
  | nil => simp
  | cons a as ih =>
    rw [List.mapM_cons, List.forall_mem_cons, ← ih]
    rcases f a with _ | b
    · simp
    · rcases as.mapM f with _ | bs <;> simp

theorem ratio_ne_none_iff (size whole : ℕ) : ratio percent size whole ≠ none ↔ whole ≠ 0 := by
  rw [ratio]
  split_ifs with h <;> simp [h]

theorem fileRow_ne_none_iff (sizes : List PkgSize) (e : FileEntry) :
    fileRow percent sizes e ≠ none ↔ sizeOf sizes e.pkg ≠ 0 ∧ total sizes ≠ 0 := by
  rw [← ratio_ne_none_iff percent e.size, ← ratio_ne_none_iff percent e.size, fileRow]
  rcases ratio percent e.size (sizeOf sizes e.pkg) with _ | inPackage
  · simp
  · rcases ratio percent e.size (total sizes) with _ | inSystem <;> simp

theorem genFilesCsv_ne_none_iff :
    genFilesCsv percent (filesOf t list) (buildPackageSize t (filesOf t list)) ≠ none ↔
      ∀ l ∈ list, t.stat l.path ≠ none →
        ∃ f ∈ t.entries, f.2.size ≠ 0 ∧ owner list f.1 = owner list l.path := by
  rw [genFilesCsv, ne_eq, Option.map_eq_none_iff, fileRows, ← ne_eq, mapM_ne_none_iff]
  constructor
  · intro h l hl hstat
    obtain ⟨sz, hsz⟩ := Option.ne_none_iff_exists'.mp hstat
    have he : (⟨l.path, owner list l.path, sz⟩ : FileEntry) ∈ filesOf t list :=
      mem_filesOf.mpr ⟨l, hl, hsz, rfl, rfl⟩
    have hrow := ((fileRow_ne_none_iff percent _ _).mp (h _ he)).1
    rw [sizeOf_eq_bytesOf] at hrow
    exact bytesOf_ne_zero_iff.mp hrow
  · intro h e he
    obtain ⟨l, hl, hsz, hpath, hpkg⟩ := mem_filesOf.mp he
    obtain ⟨f, hf, hsize, howner⟩ := h l hl (hsz ▸ Option.some_ne_none _)
    refine (fileRow_ne_none_iff percent _ _).mpr ⟨?_, ?_⟩
    · rw [sizeOf_eq_bytesOf, hpkg]
      exact bytesOf_ne_zero_iff.mpr ⟨f, hf, hsize, howner⟩
    · rw [total_eq_bytes]
      exact bytes_ne_zero_iff.mpr ⟨f, hf, hsize⟩

theorem genPackagesCsv_ne_none_iff (files : FilesDict) :
    genPackagesCsv percent (buildPackageSize t files) ≠ none ↔
      (∃ f ∈ t.entries, f.2.size ≠ 0) ∨ ∀ f ∈ t.entries, f.2 = .link := by
  have hrow : ∀ p : PkgSize, (ratio percent p.size (total (buildPackageSize t files))).map (p, ·) ≠
      none ↔ bytes t.entries ≠ 0 := by
    intro p
    rw [ne_eq, Option.map_eq_none_iff, ← total_eq_bytes t files]
    exact ratio_ne_none_iff percent p.size _
  rw [genPackagesCsv, ne_eq, Option.map_eq_none_iff, packageRows, ← ne_eq, mapM_ne_none_iff,
    ← bytes_ne_zero_iff]
  simp only [hrow]
  constructor
  · intro h
    refine or_iff_not_imp_left.mpr fun hbytes f hf => ?_
    by_contra hlink
    have hkey : pkgOf files f.1 ∈ (buildPackageSize t files).map PkgSize.name := by
      rw [buildPackageSize_eq, Registry.mem_keys_collect name_new name_addTo]
      exact ⟨f, List.mem_filter.mpr ⟨hf, by simpa using hlink⟩, rfl⟩
    obtain ⟨p, hp, -⟩ := List.mem_map.mp hkey
    exact hbytes (h p hp)
  · rintro (hbytes | hlinks) p hp
    · exact hbytes
    · have hnone : t.entries.filter (·.2 ≠ .link) = [] :=
        List.filter_eq_nil_iff.mpr fun f hf => by simpa using hlinks f hf
      rw [buildPackageSize_eq, hnone] at hp
      cases hp

/-- The sizes always add up; the tables are written exactly if each package that is the last one
of something listed has a file that is not empty, and the tree has such a file or no file at all. -/
theorem accounts_iff (percent : ℕ → ℕ → Percent) (t : Target) (list : List Listing) :
    Right percent t list ↔
      (∀ l ∈ list, t.stat l.path ≠ none →
        ∃ f ∈ t.entries, f.2.size ≠ 0 ∧ owner list f.1 = owner list l.path) ∧
      ((∃ f ∈ t.entries, f.2.size ≠ 0) ∨ ∀ f ∈ t.entries, f.2 = .link) := by
  rw [← genFilesCsv_ne_none_iff percent, ← genPackagesCsv_ne_none_iff percent (filesOf t list)]
  constructor
  · rintro ⟨files, hfiles, h⟩
    obtain rfl := Option.some.inj ((buildPackageDict_eq t list).symm.trans hfiles)
    exact ⟨h.genFilesCsv_ne_none, h.genPackagesCsv_ne_none⟩
  · rintro ⟨hfiles, hpackages⟩
    exact ⟨_, buildPackageDict_eq t list, nodup_names t _, total_eq_bytes t _,
      sizeOf_eq_bytesOf t list, hfiles, hpackages⟩

end

/-- A file that `p` installs, and that is empty. -/
def emptyFile : Target where
  entries := [("etc/p".toList, .regular 0)]
  nodup := List.nodup_singleton _
  other _ := none

def emptyFileListing : Listing where
  pkg := "p".toList
  path := "etc/p".toList
  not_mem_pkg := by decide
  not_mem_path := by decide
  getLast_path _ h := Option.some.inj h ▸ rfl

/-- The size of `p` is 0. -/
theorem accounts_emptyFile :
    ¬ ∀ (percent : ℕ → ℕ → Percent) (t : Target) (list : List Listing),
      Right percent t list := by
  intro h
  obtain ⟨files, hfiles, haccounts⟩ := h (fun _ _ => ⟨[], nofun⟩) emptyFile [emptyFileListing]
  obtain rfl := Option.some.inj ((buildPackageDict_eq _ _).symm.trans hfiles)
  exact haccounts.genPackagesCsv_ne_none rfl

end Dir842.FileSizes
