import Dir842.Lib.Explore

/-!
# The libraries a file needs (`find_libdeps.sh`)

`find_libdeps.sh` prints the names of the libraries that a file needs, and those that these need,
as far as they are found in the directories that are searched.
-/

namespace Dir842.FindLibdeps
open Explore (Reaches Explores exists_foldlM unmarked unmarked_le_card unmarked_lt)

/-- What `readelf` says of a file. -/
structure Elf (Name : Type*) where
  needed : List Name
  /-- The name of the program interpreter, without its directory. -/
  interp : Option Name

variable {Name : Type*}

def Elf.deps (e : Elf Name) : List Name := e.needed ++ e.interp.toList

/-- The file that is asked for, and those in the directories: of each name the first one. -/
structure Files (Name : Type*) where
  base : Name
  baseElf : Elf Name
  find : Name → Option (Elf Name)
  names : Finset Name
  mem_names : ∀ x e, find x = some e → x ∈ names

section
variable [DecidableEq Name]

/-- `found_deps` once the file itself is in it, the base file apart. -/
def addThisDep (base file : Name) (found : List Name) : List Name :=
  if file ∈ found then found
  else if file ≠ base then found ++ [file]
  else found

/-- The loop over the dependencies: `found_deps` and `deps_to_process`. -/
def scan (d : Files Name) (file : Name) :
    List Name → List Name → List (Name × Elf Name) → List Name × List (Name × Elf Name)
  | [], found, todo => (found, todo)
  | dep :: deps, found, todo =>
    if dep = file then (found, todo)
    else if dep ∈ found then scan d file deps found todo
    else
      match d.find dep with
      | some e => scan d file deps (found ++ [dep]) (todo ++ [(dep, e)])
      | none => scan d file deps (found ++ [dep]) todo

/-- `found_deps` after a call. The number bounds the depth of the recursion. -/
def findDependencies (d : Files Name) : ℕ → List Name → Name × Elf Name → Option (List Name)
  | 0, _, _ => none
  | n + 1, found, (file, e) =>
    let s := scan d file e.deps (addThisDep d.base file found) []
    s.2.foldlM (findDependencies d n) s.1

/-- The lines of `printf '%s\n'`, one of which is empty if there is no name. -/
def printf (found : List Name) : List (Option Name) :=
  if found = [] then [none] else found.map some

/-- The script comes to its end and prints these lines. -/
def Prints (d : Files Name) (out : List (Option Name)) : Prop :=
  ∃ n found, findDependencies d n [] (d.base, d.baseElf) = some found ∧ out = printf found

/-! ### The entries of a file -/

/-- The entries of what is found under a name. -/
def entries (d : Files Name) (x : Name) : List Name := ((d.find x).map Elf.deps).getD []

/-- Those before the name of the file itself, where the loop stops. -/
def before (file : Name) (deps : List Name) : List Name := deps.takeWhile (· ≠ file)

def followed (d : Files Name) (x : Name) : List Name := before x (entries d x)

/-- The files that the loop leaves to be processed. -/
def toProcess (d : Files Name) (fresh : List Name) : List (Name × Elf Name) :=
  fresh.filterMap fun x => (d.find x).map (x, ·)

/-- The dependencies that a loop adds. -/
structure Fresh (found deps fresh : List Name) : Prop where
  nodup : fresh.Nodup
  not_mem : ∀ x ∈ fresh, x ∉ found
  mem_deps : ∀ x ∈ fresh, x ∈ deps
  mem_or : ∀ x ∈ deps, x ∈ found ∨ x ∈ fresh

section
variable {d : Files Name} {file dep : Name} {deps found fresh : List Name}

theorem before_cons_of_ne (h : dep ≠ file) : before file (dep :: deps) = dep :: before file deps :=
  List.takeWhile_cons_of_pos (by simpa using h)

omit [DecidableEq Name] in
theorem Fresh.old (hdep : dep ∈ found) (h : Fresh found deps fresh) :
    Fresh found (dep :: deps) fresh where
  nodup := h.nodup
  not_mem := h.not_mem
  mem_deps x hx := List.mem_cons_of_mem _ (h.mem_deps x hx)
  mem_or := List.forall_mem_cons.mpr ⟨.inl hdep, h.mem_or⟩

omit [DecidableEq Name] in
theorem Fresh.new (hdep : dep ∉ found) (h : Fresh (found ++ [dep]) deps fresh) :
    Fresh found (dep :: deps) (dep :: fresh) where
  nodup := List.nodup_cons.mpr ⟨fun hmem => h.not_mem dep hmem (by simp), h.nodup⟩
  not_mem := List.forall_mem_cons.mpr
    ⟨hdep, fun x hx hf => h.not_mem x hx (List.mem_append_left _ hf)⟩
  mem_deps := List.forall_mem_cons.mpr
    ⟨List.mem_cons_self .., fun x hx => List.mem_cons_of_mem _ (h.mem_deps x hx)⟩
  mem_or := by
    refine List.forall_mem_cons.mpr ⟨.inr (List.mem_cons_self ..), fun x hx => ?_⟩
    rcases h.mem_or x hx with hf | hf
    · rcases List.mem_append.mp hf with hf | hf
      · exact .inl hf
      · exact .inr (List.mem_singleton.mp hf ▸ List.mem_cons_self ..)
    · exact .inr (List.mem_cons_of_mem _ hf)

theorem scan_fresh (d : Files Name) (file : Name) (deps found : List Name)
    (todo : List (Name × Elf Name)) :
    ∃ fresh, scan d file deps found todo = (found ++ fresh, todo ++ toProcess d fresh) ∧
      Fresh found (before file deps) fresh := by
  induction deps generalizing found todo with
  | nil => exact ⟨[], by simp [scan, toProcess], List.nodup_nil, nofun, nofun, nofun⟩
  | cons dep deps ih =>
    rw [scan]
    split
    · rename_i hself
      have hnone : before file (dep :: deps) = [] :=
        List.takeWhile_cons_of_neg (by simpa using hself)
      rw [hnone]
      exact ⟨[], by simp [toProcess], List.nodup_nil, nofun, nofun, nofun⟩
    · rename_i hself
      rw [before_cons_of_ne hself]
      split
      · rename_i hdep
        obtain ⟨fresh, hscan, hfresh⟩ := ih found todo
        exact ⟨fresh, hscan, hfresh.old hdep⟩
      · rename_i hdep
        split
        · rename_i e he
          obtain ⟨fresh, hscan, hfresh⟩ := ih (found ++ [dep]) (todo ++ [(dep, e)])
          refine ⟨dep :: fresh, ?_, hfresh.new hdep⟩
          rw [hscan, toProcess, toProcess, List.filterMap_cons, he]
          simp
        · rename_i he
          obtain ⟨fresh, hscan, hfresh⟩ := ih (found ++ [dep]) todo
          refine ⟨dep :: fresh, ?_, hfresh.new hdep⟩
          rw [hscan, toProcess, toProcess, List.filterMap_cons, he]
          simp

theorem flatMap_toProcess (fresh : List Name) :
    (toProcess d fresh).flatMap (fun t => before t.1 t.2.deps) = fresh.flatMap (followed d) := by
  induction fresh with
  | nil => rfl
  | cons x fresh ih =>
    rw [toProcess, List.filterMap_cons, List.flatMap_cons, ← ih]
    cases hx : d.find x with
    | none => simp [followed, entries, hx, toProcess, before]
    | some e => simp [followed, entries, hx, toProcess]

omit [DecidableEq Name] in
theorem mem_of_mem_toProcess {t : Name × Elf Name} (h : t ∈ toProcess d fresh) :
    t.1 ∈ fresh ∧ d.find t.1 = some t.2 := by
  obtain ⟨x, hx, hmap⟩ := List.mem_filterMap.mp h
  obtain ⟨e, he, rfl⟩ := Option.map_eq_some_iff.mp hmap
  exact ⟨hx, he⟩

theorem addThisDep_eq {base : Name} (h : file ∈ found ∨ file = base) :
    addThisDep base file found = found := by
  rw [addThisDep]
  split_ifs with hmem hne
  · rfl
  · exact absurd h (not_or.mpr ⟨hmem, hne⟩)
  · rfl

/-- A call for a file that is in the list, or for the base file. -/
theorem findDependencies_explores (n : ℕ) (found found' : List Name) (t : Name × Elf Name)
    (ht : t.1 ∈ found ∨ t.1 = d.base) (h : findDependencies d n found t = some found') :
    Explores (followed d) (before t.1 t.2.deps) found found' := by
  induction n generalizing found found' t with
  | zero => cases h
  | succ n ih =>
    rw [findDependencies, addThisDep_eq ht] at h
    obtain ⟨fresh, hscan, hfresh⟩ := scan_fresh d t.1 t.2.deps found []
    rw [hscan, List.nil_append] at h
    refine .mark hfresh.nodup hfresh.not_mem hfresh.mem_deps hfresh.mem_or ?_
    rw [← flatMap_toProcess]
    refine .foldlM (fun s b s' hb => ih s s' b (.inl hb)) _ (fun b hb => ?_) h
    exact List.mem_append_right _ (mem_of_mem_toProcess hb).1

/-- The recursion ends: a file is processed only when its name has just been added. -/
theorem findDependencies_ends (n : ℕ) (found : List Name) (t : Name × Elf Name)
    (ht : t.1 ∈ found ∨ t.1 = d.base) (hn : unmarked d.names found < n) :
    ∃ found', findDependencies d n found t = some found' := by
  induction n generalizing found t with
  | zero => exact absurd hn (Nat.not_lt_zero _)
  | succ n ih =>
    obtain ⟨fresh, hscan, hfresh⟩ := scan_fresh d t.1 t.2.deps found []
    rw [findDependencies, addThisDep_eq ht, hscan, List.nil_append]
    have hround : ∀ t ∈ toProcess d fresh, ∀ s, (∀ x ∈ found ++ fresh, x ∈ s) →
        ∃ s', findDependencies d n s t = some s' ∧ ∀ x ∈ found ++ fresh, x ∈ s' := by
      intro t ht s hs
      obtain ⟨hmem, hfind⟩ := mem_of_mem_toProcess ht
      have hts : t.1 ∈ s := hs _ (List.mem_append_right _ hmem)
      have hless : unmarked d.names s < n := by
        have hlt := unmarked_lt (d.mem_names _ _ hfind) (hfresh.not_mem _ hmem) hts
          fun x hx => hs x (List.mem_append_left _ hx)
        omega
      obtain ⟨s', hs'⟩ := ih s t (.inl hts) hless
      have hsub := (findDependencies_explores n s s' t (.inl hts) hs').keeps.subset
      exact ⟨s', hs', fun x hx => hsub (hs x hx)⟩
    exact exists_foldlM hround fun _ => id

end

/-! ### What is printed -/

/-- The names that the base file needs, directly or not. -/
def Needed (d : Files Name) (x : Name) : Prop := Reaches (entries d) d.baseElf.deps x

/-- Those that are needed by way of the entries before the names of the files themselves. -/
def NeededBefore (d : Files Name) (x : Name) : Prop :=
  Reaches (followed d) (before d.base d.baseElf.deps) x

def names (out : List (Option Name)) : List Name := out.filterMap id

/-- The script ends, and prints what the base file needs, each name once. -/
def Right (d : Files Name) : Prop :=
  (∃ out, Prints d out) ∧ ∀ out, Prints d out →
    (names out).Nodup ∧ ∀ x, x ∈ names out ↔ x ≠ d.base ∧ Needed d x

section
variable {d : Files Name}

omit [DecidableEq Name] in
theorem names_printf (found : List Name) : names (printf found) = found := by
  rw [names, printf]
  split
  · rename_i hnil
    rw [hnil]
    rfl
  · rw [List.filterMap_map]
    exact List.filterMap_some

theorem exists_prints (d : Files Name) : ∃ out, Prints d out := by
  have hn := Nat.lt_succ_of_le (unmarked_le_card d.names [])
  obtain ⟨found, hfound⟩ := findDependencies_ends _ [] (d.base, d.baseElf) (.inr rfl) hn
  exact ⟨_, _, found, hfound, rfl⟩

theorem prints_names {out : List (Option Name)} (h : Prints d out) :
    (names out).Nodup ∧ ∀ x, x ∈ names out ↔ NeededBefore d x := by
  obtain ⟨n, found, hfound, rfl⟩ := h
  have hexplores := findDependencies_explores n [] found _ (.inr rfl) hfound
  rw [names_printf]
  refine ⟨hexplores.nodup List.nodup_nil, fun x => ?_⟩
  rw [hexplores.mem_iff nofun, or_iff_right List.not_mem_nil]
  rfl

theorem needed_of_neededBefore {x : Name} (h : NeededBefore d x) : Needed d x := by
  have hbefore : ∀ (file : Name) deps, ∀ x ∈ before file deps, x ∈ deps := fun file deps x hx =>
    (List.takeWhile_sublist _).subset hx
  have hroots : Reaches (followed d) d.baseElf.deps x :=
    h.mono fun r hr => .of_mem (hbefore _ _ r hr)
  exact hroots.of_next fun y z hz => hbefore y _ z hz

end

/-- The script is right exactly if what it stops before is needed otherwise as well, and the base
file is not needed by what it needs. -/
theorem finds_iff (d : Files Name) :
    Right d ↔
      (∀ x, x ≠ d.base → Needed d x → NeededBefore d x) ∧ ¬ NeededBefore d d.base := by
  constructor
  · rintro ⟨⟨out, hout⟩, hright⟩
    obtain ⟨-, hnames⟩ := prints_names hout
    obtain ⟨-, hneeded⟩ := hright out hout
    refine ⟨fun x hx hneed => (hnames x).mp ((hneeded x).mpr ⟨hx, hneed⟩), fun hbase => ?_⟩
    exact ((hneeded d.base).mp ((hnames d.base).mpr hbase)).1 rfl
  · rintro ⟨hall, hbase⟩
    refine ⟨exists_prints d, fun out hout => ?_⟩
    obtain ⟨hnodup, hnames⟩ := prints_names hout
    refine ⟨hnodup, fun x => (hnames x).trans ⟨fun hx => ?_, fun ⟨hx, hneed⟩ => hall x hx hneed⟩⟩
    exact ⟨fun heq => hbase (heq ▸ hx), needed_of_neededBefore hx⟩

end

inductive Lib | app | a | b
deriving DecidableEq

/-- `a` has an entry for itself before that for `b`. -/
def selfDependent : Files Lib where
  base := .app
  baseElf := ⟨[.a], none⟩
  find
    | .a => some ⟨[.a, .b], none⟩
    | _ => none
  names := {.a}
  mem_names x e h := by
    cases x with
    | a => exact Finset.mem_singleton_self _
    | app | b => cases h

/-- `b` is lost. -/
theorem finds_selfDependent : ¬ ∀ d : Files Lib, Right d := by
  intro h
  have hneeded : Needed selfDependent .b :=
    ⟨.a, List.mem_singleton_self _, .single (List.mem_cons_of_mem _ (List.mem_singleton_self _))⟩
  have hprints : Prints selfDependent [some .a] := ⟨2, [.a], by decide, rfl⟩
  obtain ⟨-, hnames⟩ := (h selfDependent).2 _ hprints
  exact absurd ((hnames .b).mpr ⟨nofun, hneeded⟩) (by decide)

end Dir842.FindLibdeps
