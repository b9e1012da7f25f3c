import Dir842.Build.GraphBuildTime

/-!
# Revisions of the sources of packages (`gen_hashes.sh`)

`gen_hashes.sh` writes `<name>_COMMIT=<revision>` for each build directory that is a clone of git.
`DOWNLOAD_GIT` takes the revision of a package from a variable that `UPPERCASE` names.
-/

namespace Dir842.GenHashes

/-! ### One letter for another -/

section translate
variable {α : Type} [BEq α] [LawfulBEq α] {table : List (α × α)}

/-- `$(subst from,to,text)` for single characters. -/
def subst (p : α × α) (s : List α) : List α := s.map fun c => if c == p.1 then p.2 else c

def translate (table : List (α × α)) (s : List α) : List α :=
  s.map fun c => (table.lookup c).getD c

/-- One substitution after the other, where no letter that is put in is replaced again. -/
theorem foldl_subst (h : ∀ p ∈ table, ∀ q ∈ table, q.1 ≠ p.2) (s : List α) :
    table.foldl (fun s p => subst p s) s = translate table s := by
  induction table generalizing s with
  | nil => simp [translate]
  | cons p table ih =>
    have hrest : ∀ p ∈ table, ∀ q ∈ table, q.1 ≠ p.2 := fun a ha b hb =>
      h a (List.mem_cons_of_mem _ ha) b (List.mem_cons_of_mem _ hb)
    have hp : table.lookup p.2 = none := List.lookup_eq_none_iff.mpr fun q hq =>
      bne_iff_ne.mpr (h p (List.mem_cons_self ..) q (List.mem_cons_of_mem _ hq)).symm
    rw [List.foldl_cons, ih hrest, translate, translate, subst, List.map_map]
    refine List.map_congr_left fun c _ => ?_
    rw [Function.comp_apply, List.lookup_cons]
    rcases hc : c == p.1 with _ | _
    · simp only [Bool.false_eq_true, if_false]
    · simp only [if_true, hp, Option.getD_none, Option.getD_some]

end translate

/-! ### `Makefile.package.in` -/

def letters : List Char := "abcdefghijklmnopqrstuvwxyz".toList

def capitals : List Char := "ABCDEFGHIJKLMNOPQRSTUVWXYZ".toList

/-- `[FROM]` -/
def sources : List Char := letters ++ ['.', '-']

/-- `[TO]` -/
def targets : List Char := capitals ++ ['_', '_']

/-- `UPPERCASE`, of a text without blanks that `strip` could remove -/
def uppercase (text : List Char) : List Char :=
  (sources.zip targets).foldl (fun tmp c => subst c tmp) text

/-- The variable that `DOWNLOAD_GIT` reads: `$(PKG)_COMMIT`, `PKG` being `UPPERCASE` of the name. -/
def commitVar (name : List Char) : List Char := uppercase name ++ "_COMMIT".toList

/-- Characters that the shell neither splits words at nor expands. -/
def isWordChar (c : Char) : Bool := !Words.isSpace c && c ∉ ['*', '?', '[']

/-- A package and the version in its makefile. -/
structure BuildDir where
  pkg : BuildTime.PkgName
  dlVersion : List Char
  name_ne_nil : pkg.text ≠ []
  isWordChar_of_mem : ∀ c ∈ dlVersion, isWordChar c = true

/-- `<pkg>_VERSION` -/
def BuildDir.version (d : BuildDir) : List Char := subst ('/', '_') d.dlVersion

/-- `<pkg>_BASE_NAME` -/
def BuildDir.baseName (d : BuildDir) : List Char := d.pkg.text ++ '-' :: d.version

/-! ### `gen_hashes.sh` -/

/-- `tr a-z'-' A-Z'_'` -/
def tr (s : List Char) : List Char := translate ((letters ++ ['-']).zip (capitals ++ ['_'])) s

/-- `cut -d '-' -f1-$COUNT` -/
def cut (count : Nat) (s : List Char) : List Char := ['-'].intercalate ((s.splitOn '-').take count)

def repStr (rep : List Char) : List Char :=
  let count := rep.count '-'
  if count = 0 then tr rep else tr (cut count rep)

/-- The names that the loop passes over. -/
def excluded : List (List Char) :=
  ["DEUTERON_APPS".toList, "DEUTERON_ARCH".toList, "DEUTERON_FRAMEWORK".toList,
    "DEUTERON_MODULES".toList, "DATAMODEL".toList]

/-- A directory of `output/build` with a `.git`, and the revision that ends `.git/logs/HEAD`. -/
structure Repo where
  rep : List Char
  hash : List Char

/-- `"${REP_STR}_COMMIT=${HASH}"` -/
def assignment (name hash : List Char) : List Char := name ++ "_COMMIT=".toList ++ hash

/-- The line that the body of the loop writes, if it writes one. -/
def commitLine (r : Repo) : Option (List Char) :=
  if excluded.contains (repStr r.rep) then none else some (assignment (repStr r.rep) r.hash)

/-- What is added to the file. -/
def hashesFileGenerate (repos : List Repo) : List Char :=
  '\n' :: (repos.filterMap commitLine).flatMap (· ++ ['\n']) ++ ['\n']

/-! ### The names on both sides -/

/-- All but the last field. -/
theorem cut_append {q : List Char} (hq : '-' ∉ q) (p : List Char) :
    cut ((p ++ '-' :: q).count '-') (p ++ '-' :: q) = p := by
  have hlast : q.splitOn '-' = [q] :=
    List.splitOnP_eq_singleton fun c hc => beq_false_of_ne (ne_of_mem_of_not_mem hc hq)
  have hsplit : (p ++ '-' :: q).splitOn '-' = p.splitOn '-' ++ [q] :=
    hlast ▸ List.splitOnP_append_cons p q (beq_self_eq_true '-')
  have hcount : (p ++ '-' :: q).count '-' = (p.splitOn '-').length := by
    rw [Scan.length_splitOn, List.count_append, List.count_cons_self, List.count_eq_zero.mpr hq]
  rw [cut, hsplit, hcount, List.take_left, List.intercalate_splitOn]

theorem repStr_append {q : List Char} (hq : '-' ∉ q) (p : List Char) :
    repStr (p ++ '-' :: q) = tr p := by
  have hcount : (p ++ '-' :: q).count '-' ≠ 0 := by
    rw [List.count_append, List.count_cons_self]
    omega
  rw [repStr, if_neg hcount, cut_append hq]

theorem uppercase_eq (s : List Char) : uppercase s = translate (sources.zip targets) s :=
  foldl_subst (by decide) s

theorem zip_letters (l l' : List Char) :
    (letters ++ l).zip (capitals ++ l') = letters.zip capitals ++ l.zip l' :=
  List.zip_append (by decide)

/-- The two tables differ in the entry of the dot. -/
theorem getD_lookup_iff (c : Char) :
    (((letters ++ ['-']).zip (capitals ++ ['_'])).lookup c).getD c =
      ((sources.zip targets).lookup c).getD c ↔ c ≠ '.' := by
  constructor
  · rintro h rfl
    exact absurd h (by decide)
  · intro hc
    rw [sources, targets, zip_letters, zip_letters, List.lookup_append, List.lookup_append]
    simp only [List.zip_cons_cons, List.zip_nil_right, List.lookup_cons, beq_false_of_ne hc]

theorem tr_eq_uppercase_iff (s : List Char) : tr s = uppercase s ↔ '.' ∉ s := by
  rw [uppercase_eq, tr, translate, translate, List.map_inj_left]
  constructor
  · intro h hdot
    exact (getD_lookup_iff '.').mp (h '.' hdot) rfl
  · intro h c hc
    exact (getD_lookup_iff c).mpr (ne_of_mem_of_not_mem hc h)

theorem length_tr (s : List Char) : (tr s).length = s.length := List.length_map ..

theorem length_uppercase (s : List Char) : (uppercase s).length = s.length := by
  rw [uppercase_eq, translate, List.length_map]

theorem assignment_uppercase (name hash : List Char) :
    assignment (uppercase name) hash = commitVar name ++ '=' :: hash := by
  have htext : "_COMMIT=".toList = "_COMMIT".toList ++ ['='] := rfl
  rw [assignment, commitVar, htext, List.append_assoc, List.append_assoc, List.append_assoc,
    List.singleton_append]

theorem assignment_left_inj {name name' : List Char} (hash : List Char) :
    assignment name hash = assignment name' hash ↔ name = name' := by
  rw [assignment, assignment, List.append_cancel_right_eq, List.append_cancel_right_eq]

/-- The part of the directory that is left has the name of the variable exactly if it is the name
of the package and has no dot. -/
theorem repStr_eq_uppercase_iff (n v : List Char) :
    repStr (n ++ '-' :: v) = uppercase n ↔ '-' ∉ v ∧ '.' ∉ n := by
  by_cases hv : '-' ∈ v
  · obtain ⟨k, t, hvk, ht⟩ := Scan.exists_append_cons_of_mem hv
    have hbase : n ++ '-' :: v = (n ++ '-' :: k) ++ '-' :: t := by
      rw [hvk, List.append_assoc, List.cons_append]
    rw [hbase, repStr_append ht]
    refine iff_of_false (fun h => ?_) fun h => h.1 hv
    have hlength := congrArg List.length h
    rw [length_tr, length_uppercase, List.length_append, List.length_cons] at hlength
    omega
  · rw [repStr_append hv, tr_eq_uppercase_iff, and_iff_right hv]

theorem commitLine_append_iff {n : List Char} (hname : uppercase n ∉ excluded)
    (v hash : List Char) :
    commitLine ⟨n ++ '-' :: v, hash⟩ = some (commitVar n ++ '=' :: hash) ↔ '-' ∉ v ∧ '.' ∉ n := by
  rw [← repStr_eq_uppercase_iff, ← assignment_uppercase, commitLine]
  constructor
  · intro h
    split at h
    · cases h
    · exact (assignment_left_inj hash).mp (Option.some.inj h)
  · intro h
    rw [h, if_neg (mt List.contains_iff_mem.mp hname)]

/-- The line of a clone sets the variable that `DOWNLOAD_GIT` reads exactly if the version has no
hyphen and the name no dot. -/
theorem commitLine_iff (d : BuildDir) (hash : List Char)
    (hname : uppercase d.pkg.text ∉ excluded) :
    commitLine ⟨d.baseName, hash⟩ = some (commitVar d.pkg.text ++ '=' :: hash) ↔
      '-' ∉ d.version ∧ '.' ∉ d.pkg.text :=
  commitLine_append_iff hname d.version hash

def axtls : BuildDir where
  pkg := ⟨"axtls".toList, List.all_eq_true.mp rfl⟩
  dlVersion := "1.4.9".toList
  name_ne_nil := by decide
  isWordChar_of_mem := List.all_eq_true.mp rfl

set_option maxRecDepth 2000 in
theorem commitLine_axtls :
    commitLine ⟨axtls.baseName, "5c3a9d".toList⟩ = some "AXTLS_COMMIT=5c3a9d".toList :=
  (commitLine_iff axtls _ (by decide)).mpr ⟨by decide, by decide⟩

def domoticz : BuildDir where
  pkg := ⟨"domoticz".toList, List.all_eq_true.mp rfl⟩
  dlVersion := "dlink-main".toList
  name_ne_nil := by decide
  isWordChar_of_mem := List.all_eq_true.mp rfl

set_option maxRecDepth 2000 in
/-- The version of `domoticz.mk` gives `DOMOTICZ_DLINK_COMMIT`. -/
theorem commitLine_domoticz :
    ¬ ∀ (d : BuildDir) (hash : List Char), uppercase d.pkg.text ∉ excluded →
      commitLine ⟨d.baseName, hash⟩ = some (commitVar d.pkg.text ++ '=' :: hash) := fun h =>
  absurd (h domoticz "5c3a9d".toList (by decide)) (by decide)

/-- The lines of a run over all clones. -/
theorem hashesFileGenerate_eq {clones : List (BuildDir × List Char)}
    (hname : ∀ c ∈ clones, uppercase c.1.pkg.text ∉ excluded)
    (h : ∀ c ∈ clones, '-' ∉ c.1.version ∧ '.' ∉ c.1.pkg.text) :
    hashesFileGenerate (clones.map fun c => ⟨c.1.baseName, c.2⟩) =
      '\n' :: (clones.flatMap fun c => commitVar c.1.pkg.text ++ '=' :: c.2 ++ ['\n']) ++
        ['\n'] := by
  have hlines : (clones.map fun c => (⟨c.1.baseName, c.2⟩ : Repo)).filterMap commitLine =
      clones.map fun c => commitVar c.1.pkg.text ++ '=' :: c.2 := by
    rw [List.filterMap_map, ← List.filterMap_eq_map]
    refine List.filterMap_congr fun c hc => ?_
    exact (commitLine_append_iff (hname c hc) c.1.version c.2).mpr (h c hc)
  rw [hashesFileGenerate, hlines, List.flatMap_map]

end Dir842.GenHashes
