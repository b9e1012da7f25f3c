import Dir842.Target.FileSizes
import Mathlib.Algebra.BigOperators.Group.List.Basic
import Mathlib.Data.List.Dedup
import Mathlib.Algebra.BigOperators.Ring.Finset
import Mathlib.Data.List.Sort

/-!
# Two root filesystems compared (`size-stats-compare`)

`size-stats-compare` reads the tables of files that `size-stats` has written for two builds, and
prints what has become larger or smaller, by packages or by files.
-/

namespace Dir842.SizeCompare
open FileSizes

/-! ### `size-stats-compare` -/

structure Size where
  key : List Char
  size : ℤ

def Size.new (key : List Char) : Size := ⟨key, 0⟩

def setSize (size : ℤ) (s : Size) : Size := { s with size := size }

/-- The body of the loop of `read_file_size_csv`; `none` where it raises. -/
def addRow (detail : Bool) (sizes : List Size) (row : List (List Char)) : Option (List Size) := do
  let key ← row[if detail then 0 else 1]?
  let size ← BuildTime.int (BuildTime.strip (← row[if detail then 2 else 3]?))
  pure (Registry.update Size.key .new key (setSize size) sizes)

/-- `none` where it raises, or stops at a header that it does not know. -/
def readFileSizeCsv (detail : Bool) (inputf : List Char) : Option (List Size) :=
  match Csv.reader ',' (Csv.universalNewlines inputf) with
  | [] => none
  | header :: rows =>
    if header.take 4 = filesHeader.take 4 then rows.foldlM (addRow detail) [] else none

/-- What is printed of an entry that is in both tables, in the new or in the old one. -/
inductive Flag | both | added | removed

structure Delta where
  entry : List Char
  flag : Flag
  diff : ℤ

def hasKey (sizes : List Size) (key : List Char) : Bool := sizes.any (·.key = key)

def valueOf (sizes : List Size) (key : List Char) : ℤ :=
  ((Registry.lookup Size.key key sizes).map Size.size).getD 0

def compareSizes (old new : List Size) : List Delta :=
  (new.filter fun n => hasKey old n.key).map (fun n => ⟨n.key, .both, n.size - valueOf old n.key⟩) ++
  (new.filter fun n => !hasKey old n.key).map (fun n => ⟨n.key, .added, n.size⟩) ++
  (old.filter fun o => !hasKey new o.key).map fun o => ⟨o.key, .removed, -o.size⟩

/-- The entries that are printed, of a result that is in any order. -/
def printResults (result : List Delta) (threshold : Option ℤ) : List Delta :=
  (result.mergeSort fun e e' => e.diff ≤ e'.diff).filter fun e =>
    threshold.all fun t => !decide ((e.diff.natAbs : ℤ) ≤ t)

def sumValues (sizes : List Size) : ℤ := (sizes.map Size.size).sum

/-- `TOTAL` -/
def total (old new : List Size) : ℤ := sumValues new - sumValues old

/-! ### What is compared -/

/-- A tree, the list of the files of its packages, and the table that is written for them. -/
structure Stats (percent : ℕ → ℕ → Percent) where
  target : Target
  list : List Listing
  files : FilesDict
  csv : List Char
  buildPackageDict_eq : buildPackageDict target (list.map Listing.text) = some files
  genFilesCsv_eq : genFilesCsv percent files (buildPackageSize target files) = some csv

/-! ### The table is read back -/

section
variable {percent : ℕ → ℕ → Percent}

theorem mapM_fileRow {sizes : List PkgSize} {es : List FileEntry} {rows : List FileRow}
    (h : es.mapM (fileRow percent sizes) = some rows) :
    rows.map FileRow.file = es ∧ ∀ r ∈ rows, r.pkgsize = sizeOf sizes r.file.pkg := by
  induction es generalizing rows with
  | nil =>
    cases h
    exact ⟨rfl, nofun⟩
  | cons e es ih =>
    rw [List.mapM_cons] at h
    obtain ⟨r, hr, h⟩ := Option.bind_eq_some_iff.mp h
    obtain ⟨rs, hrs, h⟩ := Option.bind_eq_some_iff.mp h
    cases h
    obtain ⟨hfiles, hsizes⟩ := ih hrs
    obtain ⟨inPackage, -, hr⟩ := Option.bind_eq_some_iff.mp hr
    obtain ⟨inSystem, -, hr⟩ := Option.bind_eq_some_iff.mp hr
    cases hr
    exact ⟨congrArg (e :: ·) hfiles, List.forall_mem_cons.mpr ⟨rfl, hsizes⟩⟩

/-- What the table has been written from. -/
structure Rows (t : Target) (list : List Listing) (csv : List Char) (rows : List FileRow) : Prop where
  csv_eq : csv = filesCsv rows
  files_eq : rows.map FileRow.file = filesOf t list
  pkgsize_eq : ∀ r ∈ rows, r.pkgsize = bytesOf t list r.file.pkg

theorem Stats.exists_rows (s : Stats percent) : ∃ rows, Rows s.target s.list s.csv rows := by
  have hfiles := Option.some.inj
    ((FileSizes.buildPackageDict_eq s.target s.list).symm.trans s.buildPackageDict_eq)
  obtain ⟨rows, hrows, hcsv⟩ := Option.map_eq_some_iff.mp s.genFilesCsv_eq
  obtain ⟨hmap, hsizes⟩ := mapM_fileRow hrows
  rw [← hfiles] at hmap hsizes
  refine ⟨rows, hcsv.symm, hmap, fun r hr => ?_⟩
  rw [hsizes r hr, sizeOf_eq_bytesOf]

variable {t : Target} {list : List Listing} {csv : List Char} {rows : List FileRow}

theorem Rows.mem_files (h : Rows t list csv rows) {r : FileRow} (hr : r ∈ rows) :
    r.file ∈ filesOf t list := h.files_eq ▸ List.mem_map_of_mem hr

theorem ne_of_isDigit_or {c : Char} (h : c.isDigit ∨ c = '.') : c ≠ '\r' := by
  rintro rfl
  exact absurd h (by decide)

/-- No field has an end of line that would be lost. -/
theorem Rows.not_mem_fields (h : Rows t list csv rows) {r : FileRow} (hr : r ∈ rows) :
    (∀ f ∈ r.fields, '\r' ∉ f) ∧ '\r' ∉ r.inSystem.text := by
  obtain ⟨l, hl, -, hpath, hpkg⟩ := mem_filesOf.mp (h.mem_files hr)
  obtain ⟨last, hlast, howner⟩ := getLast_listings (mem_listings.mpr ⟨hl, rfl⟩)
  have hnumber : ∀ n, '\r' ∉ number n := fun n hn =>
    ne_of_isDigit_or (.inl (BuildTime.isDigit_of_mem hn)) rfl
  have hpercent : ∀ p : Percent, '\r' ∉ p.text := fun p hp =>
    ne_of_isDigit_or (p.isDigit_or_of_mem _ hp) rfl
  refine ⟨?_, hpercent _⟩
  simp only [FileRow.fields, List.forall_mem_cons, List.not_mem_nil, false_implies, implies_true,
    and_true]
  rw [hpath, hpkg, howner]
  exact ⟨l.not_mem_path.2, last.not_mem_pkg.2.2, hnumber _, hnumber _, hpercent _⟩

theorem Rows.reader_eq (h : Rows t list csv rows) :
    Csv.reader ',' (Csv.universalNewlines csv) =
      (filesHeader ++ ["File size in system (%)".toList]) ::
        rows.map fun r => r.fields ++ [r.inSystem.text] := by
  have hheader : (∀ f ∈ filesHeader, '\r' ∉ f) ∧ '\r' ∉ "File size in system (%)".toList := by
    decide
  rw [h.csv_eq, filesCsv, Csv.universalNewlines_writeRow (by decide) hheader.1 hheader.2, Csv.reader,
    Csv.rows_rowText (by decide) (by decide) (by simp [filesHeader]), List.nil_append]
  refine congrArg _ (Csv.reader_flatMap_writeRow (by decide) (by decide) (by decide)
    (fun r => by simp [FileRow.fields]) rows (fun r hr => (h.not_mem_fields hr).1)
    fun r hr => (h.not_mem_fields hr).2)

def rowKey (detail : Bool) (r : FileRow) : List Char := if detail then r.file.path else r.file.pkg

def rowSize (detail : Bool) (r : FileRow) : ℕ := if detail then r.file.size else r.pkgsize

theorem addRow_fields (detail : Bool) (sizes : List Size) (r : FileRow) :
    addRow detail sizes (r.fields ++ [r.inSystem.text]) =
      some (Registry.update Size.key .new (rowKey detail r) (setSize (rowSize detail r)) sizes) := by
  have hint : ∀ n, BuildTime.int (BuildTime.strip (number n)) = some (n : ℤ) := by
    intro n
    rw [number, BuildTime.strip_eq_self fun c hc =>
      BuildTime.not_isSpace_of_isDigit (BuildTime.isDigit_of_mem hc), BuildTime.int_toDigits]
  cases detail with
  | false =>
    show ((BuildTime.int (BuildTime.strip (number r.pkgsize))).bind fun size =>
      some (Registry.update Size.key .new r.file.pkg (setSize size) sizes)) = _
    rw [hint]
    rfl
  | true =>
    show ((BuildTime.int (BuildTime.strip (number r.file.size))).bind fun size =>
      some (Registry.update Size.key .new r.file.path (setSize size) sizes)) = _
    rw [hint]
    rfl

/-- `sizes` after the rows. -/
def sizesOf (detail : Bool) (rows : List FileRow) : List Size :=
  Registry.collect Size.key .new (rowKey detail) (fun r => setSize (rowSize detail r)) rows

theorem Rows.readFileSizeCsv_eq (h : Rows t list csv rows) (detail : Bool) :
    readFileSizeCsv detail csv = some (sizesOf detail rows) := by
  have hfold : ∀ rows : List FileRow, (rows.map fun r => r.fields ++ [r.inSystem.text]).foldlM
      (addRow detail) [] = some (sizesOf detail rows) := by
    intro rows
    induction rows using List.reverseRecOn with
    | nil => rfl
    | append_singleton rows r ih =>
      rw [List.map_append, List.foldlM_append, ih]
      show List.foldlM (addRow detail) (sizesOf detail rows) [r.fields ++ [r.inSystem.text]] = _
      rw [List.foldlM_cons, addRow_fields, sizesOf, sizesOf, Registry.collect_concat]
      rfl
  rw [readFileSizeCsv, h.reader_eq]
  show (if _ then _ else _) = _
  rw [if_pos (by rw [List.take_append_of_le_length (by simp [filesHeader])]), hfold]

end

/-! ### The differences add up -/

theorem sum_filter_add {α M : Type} [AddCommMonoid M] (p : α → Bool) (f : α → M) (as : List α) :
    ((as.filter p).map f).sum + ((as.filter fun a => !p a).map f).sum = (as.map f).sum := by
  rw [← List.sum_map_filter_add_sum_map_filter_not (fun a => p a = true) f as]
  simp

theorem key_new (key : List Char) : (Size.new key).key = key := rfl

theorem key_setSize (size : ℤ) (s : Size) : (setSize size s).key = s.key := rfl

theorem nodup_sizesOf (detail : Bool) (rows : List FileRow) :
    ((sizesOf detail rows).map Size.key).Nodup :=
  Registry.nodup_keys_collect key_new (fun r => key_setSize (rowSize detail r)) rows

section
variable {old new : List Size}

theorem hasKey_iff {sizes : List Size} {key : List Char} :
    hasKey sizes key ↔ key ∈ sizes.map Size.key := by
  rw [hasKey, List.any_eq_true, List.mem_map]
  simp only [decide_eq_true_eq]

theorem valueOf_of_mem {o : Size} (hold : (old.map Size.key).Nodup) (ho : o ∈ old) :
    valueOf old o.key = o.size := by
  rw [valueOf, (Registry.lookup_eq_some_iff hold).mpr ⟨ho, rfl⟩]
  rfl

/-- The keys that are in both. -/
theorem perm_common (hold : (old.map Size.key).Nodup) (hnew : (new.map Size.key).Nodup) :
    ((new.filter fun n => hasKey old n.key).map Size.key).Perm
      ((old.filter fun o => hasKey new o.key).map Size.key) := by
  refine (List.perm_ext_iff_of_nodup (hnew.sublist (List.filter_sublist.map _))
    (hold.sublist (List.filter_sublist.map _))).mpr fun key => ?_
  simp only [List.mem_map, List.mem_filter, hasKey_iff]
  constructor
  · rintro ⟨n, ⟨hn, o, ho, hkey⟩, rfl⟩
    exact ⟨o, ⟨ho, n, hn, hkey.symm⟩, hkey⟩
  · rintro ⟨o, ⟨ho, n, hn, hkey⟩, rfl⟩
    exact ⟨n, ⟨hn, o, ho, hkey.symm⟩, hkey⟩

theorem sum_common (hold : (old.map Size.key).Nodup) (hnew : (new.map Size.key).Nodup) :
    ((new.filter fun n => hasKey old n.key).map fun n => valueOf old n.key).sum =
      ((old.filter fun o => hasKey new o.key).map Size.size).sum := by
  have hsum := ((perm_common hold hnew).map (valueOf old)).sum_eq
  rw [List.map_map, List.map_map] at hsum
  refine hsum.trans (congrArg List.sum (List.map_congr_left fun o ho => ?_))
  exact valueOf_of_mem hold (List.mem_of_mem_filter ho)

/-- What is in both, added or removed is all of the difference. -/
theorem sum_compareSizes (hold : (old.map Size.key).Nodup) (hnew : (new.map Size.key).Nodup) :
    ((compareSizes old new).map Delta.diff).sum = total old new := by
  have hboth : ((new.filter fun n => hasKey old n.key).map fun n => n.size - valueOf old n.key).sum =
      ((new.filter fun n => hasKey old n.key).map Size.size).sum -
        ((old.filter fun o => hasKey new o.key).map Size.size).sum := by
    rw [← sum_common hold hnew, eq_sub_iff_add_eq, ← List.sum_map_add]
    simp
  have hremoved : ((old.filter fun o => !hasKey new o.key).map fun o => -o.size).sum =
      -((old.filter fun o => !hasKey new o.key).map Size.size).sum := by
    rw [List.sum_neg, List.map_map]
    rfl
  have hsumNew := sum_filter_add (fun n => hasKey old n.key) Size.size new
  have hsumOld := sum_filter_add (fun o => hasKey new o.key) Size.size old
  rw [compareSizes, List.map_append, List.map_append, List.sum_append, List.sum_append, List.map_map,
    List.map_map, List.map_map, total, sumValues, sumValues, ← hsumNew, ← hsumOld]
  show (List.map (fun n : Size => n.size - valueOf old n.key) _).sum + (List.map Size.size _).sum +
    (List.map (fun o : Size => -o.size) _).sum = _
  rw [hboth, hremoved]
  omega

/-- Without a threshold all entries are printed. -/
theorem perm_printResults (order : List Delta) : (printResults order none).Perm order := by
  have hall : printResults order none = order.mergeSort fun e e' => e.diff ≤ e'.diff :=
    List.filter_eq_self.mpr fun _ _ => rfl
  rw [hall]
  exact List.mergeSort_perm ..

theorem sum_printResults {order : List Delta} (hold : (old.map Size.key).Nodup)
    (hnew : (new.map Size.key).Nodup) (horder : order.Perm (compareSizes old new)) :
    ((printResults order none).map Delta.diff).sum = total old new := by
  rw [← sum_compareSizes hold hnew]
  exact (((perm_printResults order).trans horder).map Delta.diff).sum_eq

end

/-! ### What the table does not show -/

section
variable (t : Target) (list : List Listing)

def listed (p : Path) : Bool := list.any (·.path = p)

/-- The package has a row. -/
def shown (pkg : Pkg) : Bool :=
  list.any fun l => (t.stat l.path).isSome && decide (owner list l.path = pkg)

/-- The bytes of the packages without a row. -/
def hidden : ℕ := bytes (t.entries.filter fun f => !shown t list (owner list f.1))

/-- The bytes of the files without a row. -/
def unlisted : ℕ := bytes (t.entries.filter fun f => !listed list f.1)

/-- The sizes in the rows of what is not one of the files. -/
def beside : ℕ :=
  (((list.map Listing.path).dedup.filter fun p => !t.entries.any (·.1 = p)).map fun p =>
    (t.other p).getD 0).sum

end

section
variable {percent : ℕ → ℕ → Percent} {t : Target} {list : List Listing} {csv : List Char}
  {rows : List FileRow}

theorem bytes_filter_add (p : Path × Kind → Bool) (fs : List (Path × Kind)) :
    bytes (fs.filter p) + bytes (fs.filter fun f => !p f) = bytes fs :=
  sum_filter_add p (fun f => f.2.size) fs

/-- The files of some packages, package by package. -/
theorem sum_bytesOf {pkgs : List Pkg} {p : Pkg → Bool} (h : pkgs.Nodup)
    (hp : ∀ pkg, p pkg ↔ pkg ∈ pkgs) :
    (pkgs.map (bytesOf t list)).sum = bytes (t.entries.filter fun f => p (owner list f.1)) := by
  induction pkgs generalizing p with
  | nil =>
    have hnone : (t.entries.filter fun f => p (owner list f.1)) = [] :=
      List.filter_eq_nil_iff.mpr fun f _ hf => List.not_mem_nil ((hp _).mp hf)
    rw [hnone]
    rfl
  | cons pkg pkgs ih =>
    rw [List.nodup_cons] at h
    have hothers : ∀ q, (p q && !decide (q = pkg)) ↔ q ∈ pkgs := by
      intro q
      rw [Bool.and_eq_true, hp, List.mem_cons, Bool.not_eq_true', decide_eq_false_iff_not]
      constructor
      · rintro ⟨rfl | hq, hne⟩
        · exact absurd rfl hne
        · exact hq
      · intro hq
        exact ⟨.inr hq, ne_of_mem_of_not_mem hq h.1⟩
    have hfiles := bytes_filter_add (fun f => owner list f.1 = pkg)
      (t.entries.filter fun f => p (owner list f.1))
    rw [List.filter_filter, List.filter_filter] at hfiles
    rw [List.map_cons, List.sum_cons, ih h.2 hothers, ← hfiles, bytesOf]
    congr 2
    · refine List.filter_congr fun f _ => ?_
      by_cases hf : owner list f.1 = pkg
      · simp [hf, (hp pkg).mpr List.mem_cons_self]
      · simp [hf]
    · exact List.filter_congr fun f _ => Bool.and_comm ..

theorem foldl_setSize {f : FileRow → ℤ} {n : ℤ} {rs : List FileRow} (hne : rs ≠ [])
    (h : ∀ r ∈ rs, f r = n) (s : Size) : (rs.foldl (fun s r => setSize (f r) s) s).size = n := by
  rw [← List.dropLast_append_getLast hne, List.foldl_concat]
  exact h _ (List.getLast_mem hne)

/-- Each object has the bytes of its package. -/
theorem Rows.size_eq (h : Rows t list csv rows) {s : Size} (hs : s ∈ sizesOf false rows) :
    s.size = bytesOf t list s.key := by
  have hcollect := Registry.eq_of_mem_collect key_new (fun r => key_setSize (rowSize false r)) hs
  obtain ⟨r, hr, hkey⟩ := (Registry.mem_keys_collect key_new
    (fun r => key_setSize (rowSize false r))).mp (List.mem_map_of_mem hs)
  have hmem : r ∈ rows.filter (rowKey false · = s.key) :=
    List.mem_filter.mpr ⟨hr, decide_eq_true hkey⟩
  refine (congrArg Size.size hcollect).trans
    (foldl_setSize (List.ne_nil_of_mem hmem) (fun r hr => ?_) _)
  obtain ⟨hrow, hpkg⟩ := List.mem_filter.mp hr
  have hpkg : r.file.pkg = s.key := of_decide_eq_true hpkg
  show ((r.pkgsize : ℕ) : ℤ) = _
  rw [h.pkgsize_eq r hrow, hpkg]

theorem Rows.mem_keys (h : Rows t list csv rows) {pkg : Pkg} :
    pkg ∈ (sizesOf false rows).map Size.key ↔ shown t list pkg := by
  have hkeys : pkg ∈ (sizesOf false rows).map Size.key ↔ ∃ r ∈ rows, rowKey false r = pkg :=
    Registry.mem_keys_collect key_new fun r => key_setSize (rowSize false r)
  rw [hkeys, shown, List.any_eq_true]
  constructor
  · rintro ⟨r, hr, rfl⟩
    obtain ⟨l, hl, hstat, -, hpkg⟩ := mem_filesOf.mp (h.mem_files hr)
    refine ⟨l, hl, ?_⟩
    rw [hstat]
    exact decide_eq_true hpkg.symm
  · rintro ⟨l, hl, hshown⟩
    obtain ⟨hstat, hpkg⟩ := Bool.and_eq_true_iff.mp hshown
    obtain ⟨sz, hsz⟩ := Option.isSome_iff_exists.mp hstat
    have hfile : (⟨l.path, owner list l.path, sz⟩ : FileEntry) ∈ rows.map FileRow.file := by
      rw [h.files_eq]
      exact mem_filesOf.mpr ⟨l, hl, hsz, rfl, rfl⟩
    obtain ⟨r, hr, hfile⟩ := List.mem_map.mp hfile
    refine ⟨r, hr, ?_⟩
    show r.file.pkg = pkg
    rw [hfile]
    exact of_decide_eq_true hpkg

/-- By packages, the bytes of the packages without a row are missing. -/
theorem Rows.sumValues_add_hidden (h : Rows t list csv rows) :
    sumValues (sizesOf false rows) + hidden t list = bytes t.entries := by
  have hsizes : (sizesOf false rows).map Size.size =
      (((sizesOf false rows).map Size.key).map (bytesOf t list)).map Nat.cast := by
    rw [List.map_map, List.map_map]
    exact List.map_congr_left fun s hs => h.size_eq hs
  have hshown := @sum_bytesOf t list _ (shown t list) (nodup_sizesOf false rows)
    fun _ => h.mem_keys.symm
  rw [sumValues, hsizes, ← Nat.cast_list_sum, hshown, hidden, ← Nat.cast_add, bytes_filter_add]

/-- The size in the row of a path, 0 without one. -/
def sizeAt (t : Target) (p : Path) : ℕ := (t.stat p).getD 0

theorem sizeAt_of_mem {f : Path × Kind} (hf : f ∈ t.entries) : sizeAt t f.1 = f.2.size := by
  rw [sizeAt, Target.stat, lookup_entries hf]
  cases f.2 <;> rfl

theorem sizeAt_of_not_mem {p : Path} (hp : t.entries.any (·.1 = p) = false) :
    sizeAt t p = (t.other p).getD 0 := by
  have hlookup : t.entries.lookup p = none := by
    refine List.lookup_eq_none_iff.mpr fun f hf => bne_iff_ne.mpr fun h => ?_
    exact List.any_eq_false.mp hp f hf (decide_eq_true h.symm)
  rw [sizeAt, Target.stat, hlookup]

theorem perm_paths (t : Target) (list : List Listing) : ((filesOf t list).map FileEntry.path).Perm
    ((list.map Listing.path).dedup.filter fun p => (t.stat p).isSome) := by
  refine (List.perm_ext_iff_of_nodup (nodup_filesOf t list)
    ((List.nodup_dedup _).sublist List.filter_sublist)).mpr fun p => ?_
  rw [List.mem_map, List.mem_filter, List.mem_dedup, List.mem_map]
  constructor
  · rintro ⟨e, he, rfl⟩
    obtain ⟨l, hl, hstat, hpath, -⟩ := mem_filesOf.mp he
    exact ⟨⟨l, hl, hpath.symm⟩, by rw [hpath, hstat]; rfl⟩
  · rintro ⟨⟨l, hl, rfl⟩, hstat⟩
    obtain ⟨sz, hsz⟩ := Option.isSome_iff_exists.mp hstat
    exact ⟨⟨l.path, owner list l.path, sz⟩, mem_filesOf.mpr ⟨l, hl, hsz, rfl, rfl⟩, rfl⟩

theorem sum_filesOf (t : Target) (list : List Listing) :
    ((filesOf t list).map FileEntry.size).sum =
      ((list.map Listing.path).dedup.map (sizeAt t)).sum := by
  have hsizes : (filesOf t list).map FileEntry.size =
      ((filesOf t list).map FileEntry.path).map (sizeAt t) := by
    rw [List.map_map]
    refine List.map_congr_left fun e he => ?_
    obtain ⟨l, -, hstat, hpath, -⟩ := mem_filesOf.mp he
    rw [Function.comp_apply, sizeAt, hpath, hstat]
    rfl
  have hnone : (((list.map Listing.path).dedup.filter fun p => !(t.stat p).isSome).map
      (sizeAt t)).sum = 0 := by
    refine List.sum_eq_zero fun n hn => ?_
    obtain ⟨p, hp, rfl⟩ := List.mem_map.mp hn
    have hstat : t.stat p = none := by simpa using (List.mem_filter.mp hp).2
    rw [sizeAt, hstat]
    rfl
  rw [hsizes, ((perm_paths t list).map (sizeAt t)).sum_eq, ← Nat.add_zero (List.sum _), ← hnone]
  exact sum_filter_add ..

theorem perm_listed (t : Target) (list : List Listing) :
    ((t.entries.filter fun f => listed list f.1).map Prod.fst).Perm
      ((list.map Listing.path).dedup.filter fun p => t.entries.any (·.1 = p)) := by
  refine (List.perm_ext_iff_of_nodup (t.nodup.sublist (List.filter_sublist.map _))
    ((List.nodup_dedup _).sublist List.filter_sublist)).mpr fun p => ?_
  simp only [List.mem_map, List.mem_filter, List.mem_dedup, listed, List.any_eq_true,
    decide_eq_true_eq]
  constructor
  · rintro ⟨f, ⟨hf, l, hl, hpath⟩, rfl⟩
    exact ⟨⟨l, hl, hpath⟩, f, hf, rfl⟩
  · rintro ⟨⟨l, hl, rfl⟩, f, hf, hpath⟩
    exact ⟨f, ⟨hf, l, hl, hpath.symm⟩, hpath⟩

theorem sum_listed (t : Target) (list : List Listing) :
    ((list.map Listing.path).dedup.map (sizeAt t)).sum =
      bytes (t.entries.filter fun f => listed list f.1) + beside t list := by
  have hfiles : bytes (t.entries.filter fun f => listed list f.1) =
      (((list.map Listing.path).dedup.filter fun p => t.entries.any (·.1 = p)).map
        (sizeAt t)).sum := by
    rw [bytes, ← ((perm_listed t list).map (sizeAt t)).sum_eq, List.map_map]
    exact congrArg List.sum (List.map_congr_left fun f hf =>
      (sizeAt_of_mem (List.mem_of_mem_filter hf)).symm)
  have hbeside : beside t list =
      (((list.map Listing.path).dedup.filter fun p => !t.entries.any (·.1 = p)).map
        (sizeAt t)).sum := by
    refine congrArg List.sum (List.map_congr_left fun p hp => (sizeAt_of_not_mem ?_).symm)
    exact Bool.not_eq_true' _ ▸ (List.mem_filter.mp hp).2
  rw [hfiles, hbeside]
  exact (sum_filter_add ..).symm

/-- By files, those without a row are missing, and what is listed beside the files is there. -/
theorem Rows.sumValues_add_unlisted (h : Rows t list csv rows) :
    sumValues (sizesOf true rows) + unlisted t list = bytes t.entries + beside t list := by
  have hpaths : (rows.map (rowKey true)).Nodup := by
    have hnodup := nodup_filesOf t list
    rwa [← h.files_eq, List.map_map] at hnodup
  have hsizes : (sizesOf true rows).map Size.size =
      ((filesOf t list).map FileEntry.size).map Nat.cast := by
    rw [sizesOf, Registry.collect_of_nodup key_new (fun r => key_setSize (rowSize true r)) hpaths,
      ← h.files_eq, List.map_map, List.map_map, List.map_map]
    rfl
  have hall := bytes_filter_add (fun f => listed list f.1) t.entries
  rw [sumValues, hsizes, ← Nat.cast_list_sum, sum_filesOf, sum_listed, ← hall, unlisted]
  push_cast
  omega

end

/-! ### What is right -/

section
variable {percent : ℕ → ℕ → Percent}

/-- Both tables are read, `TOTAL` is the difference of the trees, and the entries make it up, in
whichever order they come. -/
def Agrees (detail : Bool) (old new : Stats percent) : Prop :=
  ∃ oldSizes newSizes, readFileSizeCsv detail old.csv = some oldSizes ∧
    readFileSizeCsv detail new.csv = some newSizes ∧
    total oldSizes newSizes = (bytes new.target.entries : ℤ) - bytes old.target.entries ∧
    ∀ order : List Delta, order.Perm (compareSizes oldSizes newSizes) →
      ((printResults order none).map Delta.diff).sum = total oldSizes newSizes

/-- By packages and by files. -/
def Right (old new : Stats percent) : Prop := ∀ detail, Agrees detail old new

variable {old new : Stats percent}

theorem agrees_iff_of_rows {detail : Bool} {os ns : List FileRow}
    (hos : Rows old.target old.list old.csv os) (hns : Rows new.target new.list new.csv ns) :
    Agrees detail old new ↔ total (sizesOf detail os) (sizesOf detail ns) =
      (bytes new.target.entries : ℤ) - bytes old.target.entries := by
  constructor
  · rintro ⟨o, n, ho, hn, htotal, -⟩
    obtain rfl := Option.some.inj ((hos.readFileSizeCsv_eq detail).symm.trans ho)
    obtain rfl := Option.some.inj ((hns.readFileSizeCsv_eq detail).symm.trans hn)
    exact htotal
  · intro htotal
    exact ⟨_, _, hos.readFileSizeCsv_eq detail, hns.readFileSizeCsv_eq detail, htotal,
      fun _ => sum_printResults (nodup_sizesOf detail os) (nodup_sizesOf detail ns)⟩

theorem agrees_packages_iff : Agrees false old new ↔
    hidden new.target new.list = hidden old.target old.list := by
  obtain ⟨os, hos⟩ := old.exists_rows
  obtain ⟨ns, hns⟩ := new.exists_rows
  have hold := hos.sumValues_add_hidden
  have hnew := hns.sumValues_add_hidden
  rw [agrees_iff_of_rows hos hns, total]
  omega

theorem agrees_detail_iff : Agrees true old new ↔
    unlisted new.target new.list + beside old.target old.list =
      unlisted old.target old.list + beside new.target new.list := by
  obtain ⟨os, hos⟩ := old.exists_rows
  obtain ⟨ns, hns⟩ := new.exists_rows
  have hold := hos.sumValues_add_unlisted
  have hnew := hns.sumValues_add_unlisted
  rw [agrees_iff_of_rows hos hns, total]
  omega

/-- The comparison is right exactly if what is not in the tables has not changed: the bytes of the
packages without a row, and those of the files without a row, less what is listed beside them. -/
theorem agrees_iff (old new : Stats percent) :
    Right old new ↔
      hidden new.target new.list = hidden old.target old.list ∧
      unlisted new.target new.list + beside old.target old.list =
        unlisted old.target old.list + beside new.target new.list := by
  rw [← agrees_packages_iff, ← agrees_detail_iff, Right, Bool.forall_bool]

end

/-- A file that `p` installs. -/
def packageOnly : Stats fun _ _ => ⟨[], nofun⟩ where
  target := {
    entries := [("etc/p".toList, .regular 1)]
    nodup := List.nodup_singleton _
    other _ := none
  }
  list := [emptyFileListing]
  files := [⟨"etc/p".toList, "p".toList, 1⟩]
  csv := filesCsv [⟨⟨"etc/p".toList, "p".toList, 1⟩, 1, ⟨[], nofun⟩, ⟨[], nofun⟩⟩]
  buildPackageDict_eq := rfl
  genFilesCsv_eq := rfl

/-- The same with one more file, that no package has installed. -/
def withUnlisted : Stats fun _ _ => ⟨[], nofun⟩ where
  target := {
    entries := [("etc/p".toList, .regular 1), ("etc/x".toList, .regular 1)]
    nodup := by decide
    other _ := none
  }
  list := [emptyFileListing]
  files := [⟨"etc/p".toList, "p".toList, 1⟩]
  csv := filesCsv [⟨⟨"etc/p".toList, "p".toList, 1⟩, 1, ⟨[], nofun⟩, ⟨[], nofun⟩⟩]
  buildPackageDict_eq := rfl
  genFilesCsv_eq := rfl

/-- `TOTAL` is 0. -/
theorem agrees_withUnlisted : ¬ ∀ (percent : ℕ → ℕ → Percent) (old new : Stats percent),
    Right old new := by
  intro h
  exact absurd (agrees_packages_iff.mp (h _ packageOnly withUnlisted false)) (by decide)

end Dir842.SizeCompare
