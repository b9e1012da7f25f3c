import Dir842.Build.GraphBuildTime
import Dir842.Lib.Dot
import Dir842.Lib.Explore
import Dir842.Lib.Fuel
import Mathlib.Data.Char
import Mathlib.Data.List.Dedup

/-!
# The graph of dependencies (`graph-depends`)

`graph-depends` asks `make` for the dependencies of the packages, one package after the other, and
prints a graph for `dot`: of all the selected packages, or of what one package needs.
-/

namespace Dir842.GraphDepends
open BuildTime (PkgName strip isNameChar)
open Explore (Reaches Explores exists_foldlM unmarked unmarked_le unmarked_le_card unmarked_lt)

abbrev Name := List Char

/-! ### What `make` says -/

/-- The name of a package. -/
structure Word extends PkgName where
  ne_nil : text ≠ []

/-- The packages as `make` has them. -/
structure Makefiles where
  /-- `show-targets` -/
  targets : List Word
  /-- `<pkg>-show-depends`, where there is such a target. -/
  depends : Name → Option (List Word)
  /-- The packages of the generic infrastructure. -/
  packages : Finset Name
  mem_packages : ∀ p ds, depends p = some ds → p ∈ packages

/-- The output of `@echo` -/
def echo (ws : List Word) : List Char := [' '].intercalate (ws.map (·.text)) ++ ['\n']

/-- `output.strip()`, then `output.split(' ')` -/
def splitOutput (output : List Char) : List Name :=
  if strip output = [] then [] else (strip output).splitOn ' '

def getTargets (m : Makefiles) : List Name := splitOutput (echo m.targets)

def getDepends (m : Makefiles) (pkg : Name) : Option (List Name) :=
  (m.depends pkg).map fun ds => splitOutput (echo ds)

/-! ### `graph-depends` -/

inductive Mode
  | full
  | pkg (rootpkg : Name)
deriving DecidableEq

structure State where
  allpkgs : List Name
  unknownpkgs : List Name

abbrev Dependency := Name × Name

/-- The body of the loop over the dependencies of a package, `call` being `get_all_depends`. -/
def addDepends (call : State → Name → Option (State × Option (List Dependency))) :
    State × List Dependency → Name → Option (State × List Dependency)
  | (st, dependencies), dep => do
    let (st, newdeps) ← call st dep
    some (st, dependencies ++ newdeps.getD [])

/-- The dependencies that are added, `none` where nothing is returned. The number bounds the depth
of the recursion. -/
def getAllDepends (m : Makefiles) :
    ℕ → State → Name → Option (State × Option (List Dependency))
  | 0, _, _ => none
  | n + 1, st, pkg =>
    if st.allpkgs.contains pkg then some (st, none)
    else
      match getDepends m pkg with
      | none => some (⟨st.allpkgs ++ [pkg], st.unknownpkgs ++ [pkg]⟩, none)
      | some [] => some (⟨st.allpkgs ++ [pkg], st.unknownpkgs⟩, none)
      | some depends => do
        let (st, dependencies) ← depends.foldlM (addDepends (getAllDepends m n))
          (⟨st.allpkgs ++ [pkg], st.unknownpkgs⟩, depends.map (pkg, ·))
        some (st, some dependencies)

/-- The targets that are no packages. -/
def uninteresting : List Name :=
  ["target-generic-issue".toList, "target-finalize".toList, "erase-fakeroots".toList,
    "target-generic-hostname".toList]

def all : Name := "all".toList

/-- The body of the loop over the targets. -/
def addTarget (call : State → Name → Option (State × Option (List Dependency))) :
    State × List Dependency → Name → Option (State × List Dependency)
  | (st, dependencies), tg =>
    if uninteresting.contains tg then some (st, dependencies)
    else do
      let (st, deps) ← call st tg
      some (st, dependencies ++ (all, tg) :: deps.getD [])

/-- The state and `dependencies` before anything is printed. -/
def collect (m : Makefiles) (n : ℕ) : Mode → Option (State × Option (List Dependency))
  | .full => do
    let (st, dependencies) ← (getTargets m).foldlM (addTarget (getAllDepends m n)) (⟨[all], []⟩, [])
    some (st, some dependencies)
  | .pkg rootpkg => getAllDepends m n ⟨[], []⟩ rootpkg

/-- `pkg_node_name` -/
def pkgNodeName (pkg : Name) : Name := pkg.filter (· != '-')

def edgeLine (dep : Dependency) : List Char :=
  pkgNodeName dep.1 ++ " -> ".toList ++ pkgNodeName dep.2 ++ "\n".toList

def labelLine (node label : Name) : List Char :=
  node ++ " [label = \"".toList ++ label ++ "\"]\n".toList

def colorLine (node color : Name) : List Char :=
  node ++ " [color=".toList ++ color ++ ",style=filled]\n".toList

def nodeLines (mode : Mode) (st : State) (pkg : Name) : List Char :=
  if pkg = all then labelLine all "ALL".toList ++ colorLine all "lightblue".toList
  else
    labelLine (pkgNodeName pkg) pkg ++
      if st.unknownpkgs.contains pkg then colorLine (pkgNodeName pkg) "red".toList
      else if mode = .pkg pkg then colorLine (pkgNodeName pkg) "lightblue".toList
      else colorLine (pkgNodeName pkg) "grey".toList

/-- What is printed, the set of the dependencies being in the order `es`. -/
def printGraph (mode : Mode) (st : State) (es : List Dependency) : List Char :=
  "digraph G \x7b\n".toList ++ (es.flatMap edgeLine ++ st.allpkgs.flatMap (nodeLines mode st)) ++
    "\x7d\n".toList

/-! ### The words of a reply -/

theorem Word.isSpace_of_mem (w : Word) : ∀ c ∈ w.text, Words.isSpace c = false := fun c hc =>
  (BuildTime.plain_of_isNameChar (w.isNameChar_of_mem c hc)).2

/-- A list of words starts and ends with a character that is not blank. -/
theorem intercalate_ends {ws : List Word} (hws : ws ≠ []) :
    [' '].intercalate (ws.map (·.text)) ≠ [] ∧
      (∀ c ∈ ([' '].intercalate (ws.map (·.text))).head?, Words.isSpace c = false) ∧
      ∀ c ∈ ([' '].intercalate (ws.map (·.text))).getLast?, Words.isSpace c = false := by
  induction ws with
  | nil => exact absurd rfl hws
  | cons w ws ih =>
    have hw := w.isSpace_of_mem
    rcases ws with _ | ⟨w', ws⟩
    · rw [List.map_singleton, List.intercalate_singleton]
      exact ⟨w.ne_nil, fun c hc => hw c (List.mem_of_mem_head? hc),
        fun c hc => hw c (List.mem_of_mem_getLast? hc)⟩
    · obtain ⟨hne, -, hlast⟩ := ih (List.cons_ne_nil w' ws)
      rw [List.map_cons] at hne hlast ⊢
      rw [List.map_cons, List.intercalate_cons_cons]
      refine ⟨by simp, ?_, ?_⟩
      · rw [List.append_assoc, List.head?_append_of_ne_nil _ w.ne_nil]
        exact fun c hc => hw c (List.mem_of_mem_head? hc)
      · rwa [List.getLast?_append_of_ne_nil _ hne]

theorem strip_echo (ws : List Word) : strip (echo ws) = [' '].intercalate (ws.map (·.text)) := by
  by_cases hws : ws = []
  · rw [hws]
    rfl
  · obtain ⟨hne, hhead, hlast⟩ := intercalate_ends hws
    exact BuildTime.strip_newline hne hhead hlast

/-- The names come out of the reply of `make`. -/
theorem splitOutput_echo (ws : List Word) : splitOutput (echo ws) = ws.map (·.text) := by
  rw [splitOutput, strip_echo]
  by_cases hws : ws = []
  · rw [hws]
    rfl
  · rw [if_neg (intercalate_ends hws).1]
    refine List.splitOn_intercalate ' ' (fun l hl hmem => ?_) (mt List.map_eq_nil_iff.mp hws)
    obtain ⟨w, -, rfl⟩ := List.mem_map.mp hl
    exact Bool.false_ne_true (w.isSpace_of_mem ' ' hmem).symm

theorem getDepends_eq (m : Makefiles) (pkg : Name) :
    getDepends m pkg = (m.depends pkg).map fun ds => ds.map (·.text) := by
  simp only [getDepends, splitOutput_echo]

theorem getTargets_eq (m : Makefiles) : getTargets m = m.targets.map (·.text) :=
  splitOutput_echo m.targets

/-! ### What a call adds -/

section
variable (m : Makefiles)

/-- The dependencies that `make` has of a package. -/
def next (p : Name) : List Name := ((m.depends p).getD []).map (·.text)

theorem next_of_getDepends {p : Name} {ds : Option (List Name)} (h : getDepends m p = ds) :
    next m p = ds.getD [] := by
  rw [← h, getDepends_eq, next]
  cases m.depends p <;> rfl

structure Adds (roots : List Name) (st st' : State) (deps : List Dependency) : Prop where
  explores : Explores (next m) roots st.allpkgs st'.allpkgs
  mem_deps : ∀ p d, (p, d) ∈ deps ↔ (p ∈ st'.allpkgs ∧ p ∉ st.allpkgs) ∧ d ∈ next m p

variable {m} {roots roots' : List Name} {st st' st'' : State} {deps deps' : List Dependency}

theorem Adds.nil (st : State) : Adds m [] st st [] where
  explores := .nil _
  mem_deps p d := by simp

theorem mem_between (h : st.allpkgs <+: st'.allpkgs) (h' : st'.allpkgs <+: st''.allpkgs)
    (p : Name) :
    p ∈ st''.allpkgs ∧ p ∉ st.allpkgs ↔
      (p ∈ st'.allpkgs ∧ p ∉ st.allpkgs) ∨ (p ∈ st''.allpkgs ∧ p ∉ st'.allpkgs) := by
  have hsub : p ∈ st.allpkgs → p ∈ st'.allpkgs := fun hp => h.subset hp
  have hsub' : p ∈ st'.allpkgs → p ∈ st''.allpkgs := fun hp => h'.subset hp
  tauto

theorem Adds.append (h : Adds m roots st st' deps) (h' : Adds m roots' st' st'' deps') :
    Adds m (roots ++ roots') st st'' (deps ++ deps') where
  explores := h.explores.append h'.explores
  mem_deps p d := by
    rw [List.mem_append, h.mem_deps, h'.mem_deps,
      mem_between h.explores.keeps h'.explores.keeps, or_and_right]

/-- A package is met for the first time: its own dependencies, and what is behind them. -/
theorem Adds.enter {p : Name} {unknown : List Name} (hp : p ∉ st.allpkgs)
    (h : Adds m (next m p) ⟨st.allpkgs ++ [p], unknown⟩ st' deps) :
    Adds m [p] st st' ((next m p).map (p, ·) ++ deps) := by
  have hbetween : ∀ q, q ∈ st'.allpkgs ∧ q ∉ st.allpkgs ↔
      q = p ∨ (q ∈ st'.allpkgs ∧ q ∉ st.allpkgs ++ [p]) := by
    intro q
    have hmem : p ∈ st'.allpkgs := h.explores.keeps.subset (List.mem_append_right _ (by simp))
    rw [List.mem_append, List.mem_singleton]
    constructor
    · rintro ⟨hq, hn⟩
      by_cases hqp : q = p
      · exact .inl hqp
      · exact .inr ⟨hq, fun h => h.elim hn hqp⟩
    · rintro (rfl | ⟨hq, hn⟩)
      · exact ⟨hmem, hp⟩
      · exact ⟨hq, fun h => hn (.inl h)⟩
  refine ⟨h.explores.enter hp, fun q d => ?_⟩
  rw [List.mem_append, h.mem_deps, hbetween, or_and_right, List.mem_map]
  refine or_congr_left ⟨?_, ?_⟩
  · rintro ⟨e, he, heq⟩
    cases heq
    exact ⟨rfl, he⟩
  · rintro ⟨rfl, hd⟩
    exact ⟨d, hd, rfl⟩

theorem Adds.leaf {p : Name} {unknown : List Name} (hp : p ∉ st.allpkgs) (hnext : next m p = []) :
    Adds m [p] st ⟨st.allpkgs ++ [p], unknown⟩ [] := by
  have hrest : Adds m (next m p) ⟨st.allpkgs ++ [p], unknown⟩ ⟨st.allpkgs ++ [p], unknown⟩ [] := by
    rw [hnext]
    exact .nil _
  have hadds := Adds.enter hp hrest
  rwa [hnext] at hadds

/-- A loop over a list that adds to a list, from what its body does. -/
theorem foldlM_adds {σ α β : Type} {f : σ × List β → α → Option (σ × List β)}
    {R : List α → σ → σ → List β → Prop} (hnil : ∀ s, R [] s s [])
    (hcons : ∀ {a as s s₁ s₂ x y}, R [a] s s₁ x → R as s₁ s₂ y → R (a :: as) s s₂ (x ++ y))
    (hf : ∀ s acc a r, f (s, acc) a = some r → ∃ x, r.2 = acc ++ x ∧ R [a] s r.1 x)
    (as : List α) (s : σ) (acc : List β) (r : σ × List β) (h : as.foldlM f (s, acc) = some r) :
    ∃ x, r.2 = acc ++ x ∧ R as s r.1 x := by
  induction as generalizing s acc with
  | nil =>
    cases h
    exact ⟨[], (List.append_nil acc).symm, hnil s⟩
  | cons a as ih =>
    rw [List.foldlM_cons] at h
    obtain ⟨⟨s₁, acc₁⟩, ha, has⟩ := Option.bind_eq_some_iff.mp h
    obtain ⟨x, rfl, hx⟩ := hf s acc a _ ha
    obtain ⟨y, hy, hR⟩ := ih _ _ has
    exact ⟨x ++ y, by rw [hy, List.append_assoc], hcons hx hR⟩

/-- The body of the loop over the dependencies of a package. -/
theorem addDepends_adds {n : ℕ} (ih : ∀ st pkg r, getAllDepends m n st pkg = some r →
    Adds m [pkg] st r.1 (r.2.getD [])) (st : State) (acc : List Dependency) (dep : Name)
    (r : State × List Dependency)
    (h : addDepends (getAllDepends m n) (st, acc) dep = some r) :
    ∃ new, r.2 = acc ++ new ∧ Adds m [dep] st r.1 new := by
  obtain ⟨⟨st₁, newdeps⟩, hdep, heq⟩ := Option.bind_eq_some_iff.mp h
  cases heq
  exact ⟨_, rfl, ih _ _ _ hdep⟩

theorem getAllDepends_adds (n : ℕ) (st : State) (pkg : Name) (r : State × Option (List Dependency))
    (h : getAllDepends m n st pkg = some r) : Adds m [pkg] st r.1 (r.2.getD []) := by
  induction n generalizing st pkg r with
  | zero => cases h
  | succ n ih =>
    rw [getAllDepends] at h
    split at h
    · rename_i hmem
      cases h
      exact { Adds.nil st with explores := .of_mem (List.contains_iff_mem.mp hmem) }
    · rename_i hcontains
      have hmem : pkg ∉ st.allpkgs := mt List.contains_iff_mem.mpr hcontains
      split at h
      · rename_i hdepends
        cases h
        exact .leaf hmem (next_of_getDepends m hdepends)
      · rename_i hdepends
        cases h
        exact .leaf hmem (next_of_getDepends m hdepends)
      · rename_i depends hne hdepends
        obtain ⟨⟨st₁, deps⟩, hfold, heq⟩ := Option.bind_eq_some_iff.mp h
        cases heq
        have hnext : next m pkg = depends := next_of_getDepends m hdepends
        obtain ⟨new, rfl, hnew⟩ := foldlM_adds (R := Adds m) Adds.nil
          (fun h h' => h.append h') (addDepends_adds ih) depends _ _ _ hfold
        have hadds := Adds.enter hmem (hnext ▸ hnew)
        rwa [hnext] at hadds

/-- The recursion ends: every call that goes on has marked one more of the packages. -/
theorem getAllDepends_ends (n : ℕ) (st : State) (pkg : Name)
    (hn : unmarked m.packages st.allpkgs < n) : ∃ r, getAllDepends m n st pkg = some r := by
  induction n generalizing st pkg with
  | zero => exact absurd hn (Nat.not_lt_zero _)
  | succ n ih =>
    rw [getAllDepends]
    split
    · exact ⟨_, rfl⟩
    · rename_i hcontains
      have hmem : pkg ∉ st.allpkgs := mt List.contains_iff_mem.mpr hcontains
      split
      · exact ⟨_, rfl⟩
      · exact ⟨_, rfl⟩
      · rename_i depends hne hdepends
        have hpkg : pkg ∈ m.packages := by
          obtain ⟨ds, hds, -⟩ := Option.map_eq_some_iff.mp hdepends
          exact m.mem_packages pkg ds hds
        have hless : unmarked m.packages (st.allpkgs ++ [pkg]) < n := by
          have hlt := unmarked_lt hpkg hmem (List.mem_append_right _ (List.mem_singleton_self pkg))
            fun y => List.mem_append_left [pkg]
          omega
        have hstep : ∀ dep ∈ depends, ∀ s : State × List Dependency,
            unmarked m.packages s.1.allpkgs < n →
              ∃ r, addDepends (getAllDepends m n) s dep = some r ∧
                unmarked m.packages r.1.allpkgs < n := by
          rintro dep - ⟨st, acc⟩ hst
          obtain ⟨r, hr⟩ := ih st dep hst
          have hle := unmarked_le (U := m.packages) fun x hx =>
            (getAllDepends_adds n st dep r hr).explores.keeps.subset hx
          exact ⟨_, by rw [addDepends, hr]; rfl, Nat.lt_of_le_of_lt hle hst⟩
        have hstart : unmarked m.packages
            (State.mk (st.allpkgs ++ [pkg]) st.unknownpkgs, depends.map (pkg, ·)).1.allpkgs < n :=
          hless
        obtain ⟨r, hr⟩ := exists_foldlM hstep hstart
        exact ⟨_, by rw [hr]; rfl⟩

end

/-! ### Both modes -/

/-- What the traversal starts from. -/
def roots (m : Makefiles) : Mode → List Name
  | .full => (m.targets.map (·.text)).filter (!uninteresting.contains ·)
  | .pkg rootpkg => [rootpkg]

/-- The package is one of those to be drawn. -/
def Reached (m : Makefiles) (mode : Mode) (p : Name) : Prop := Reaches (next m) (roots m mode) p

/-- What the loop over the targets adds. -/
def AddsTargets (m : Makefiles) (tgs : List Name) (st st' : State) (deps : List Dependency) :
    Prop :=
  ∃ inner, Adds m (tgs.filter (!uninteresting.contains ·)) st st' inner ∧
    ∀ e, e ∈ deps ↔ e ∈ inner ∨ ∃ tg ∈ tgs.filter (!uninteresting.contains ·), e = (all, tg)

section
variable {m : Makefiles}

theorem AddsTargets.nil (st : State) : AddsTargets m [] st st [] :=
  ⟨[], .nil st, by simp⟩

theorem AddsTargets.cons {tg : Name} {tgs : List Name} {st st₁ st₂ : State}
    {deps deps' : List Dependency} (h : AddsTargets m [tg] st st₁ deps)
    (h' : AddsTargets m tgs st₁ st₂ deps') : AddsTargets m (tg :: tgs) st st₂ (deps ++ deps') := by
  obtain ⟨inner, hadds, hdeps⟩ := h
  obtain ⟨inner', hadds', hdeps'⟩ := h'
  refine ⟨inner ++ inner', ?_, fun e => ?_⟩
  · rw [← List.singleton_append, List.filter_append]
    exact hadds.append hadds'
  · rw [← List.singleton_append, List.filter_append, List.mem_append, hdeps, hdeps',
      List.mem_append]
    simp only [List.mem_append, or_and_right, exists_or]
    exact or_or_or_comm ..

theorem addTarget_adds {n : ℕ} (st : State) (acc : List Dependency) (tg : Name)
    (r : State × List Dependency) (h : addTarget (getAllDepends m n) (st, acc) tg = some r) :
    ∃ new, r.2 = acc ++ new ∧ AddsTargets m [tg] st r.1 new := by
  rw [addTarget] at h
  split at h
  · rename_i hskip
    cases h
    refine ⟨[], (List.append_nil acc).symm, [], ?_, fun e => ?_⟩
    · rw [List.filter_singleton, hskip]
      exact .nil st
    · rw [List.filter_singleton, hskip]
      simp
  · rename_i hskip
    obtain ⟨⟨st₁, deps⟩, hdep, heq⟩ := Option.bind_eq_some_iff.mp h
    cases heq
    rw [Bool.not_eq_true] at hskip
    refine ⟨_, rfl, deps.getD [], ?_, fun e => ?_⟩
    · rw [List.filter_singleton, hskip]
      exact getAllDepends_adds n st tg _ hdep
    · rw [List.filter_singleton, hskip, List.mem_cons, or_comm]
      simp

theorem collect_ends_full {n : ℕ} (hn : m.packages.card < n) :
    ∃ st deps, collect m n .full = some (st, some deps) := by
  have hstep : ∀ tg ∈ getTargets m, ∀ s : State × List Dependency, True →
      ∃ r, addTarget (getAllDepends m n) s tg = some r ∧ True := by
    rintro tg - ⟨st, acc⟩ -
    have hle := unmarked_le_card m.packages st.allpkgs
    obtain ⟨r, hr⟩ := getAllDepends_ends (m := m) n st tg (Nat.lt_of_le_of_lt hle hn)
    rw [addTarget]
    split
    · exact ⟨_, rfl, trivial⟩
    · exact ⟨_, by rw [hr]; rfl, trivial⟩
  obtain ⟨r, hr⟩ := @exists_foldlM _ _ _ _ _ hstep (⟨[all], []⟩, []) trivial
  exact ⟨r.1, r.2, by rw [collect, hr]; rfl⟩

/-- A package that is met for the first time gives no list exactly if it has no dependencies. -/
theorem eq_none_iff {n : ℕ} {st : State} {pkg : Name} {r : State × Option (List Dependency)}
    (h : getAllDepends m n st pkg = some r) (hpkg : pkg ∉ st.allpkgs) :
    r.2 = none ↔ next m pkg = [] := by
  cases n with
  | zero => cases h
  | succ n =>
    rw [getAllDepends, if_neg (mt List.contains_iff_mem.mp hpkg)] at h
    split at h
    · rename_i hdepends
      cases h
      exact iff_of_true rfl (next_of_getDepends m hdepends)
    · rename_i hdepends
      cases h
      exact iff_of_true rfl (next_of_getDepends m hdepends)
    · rename_i depends hne hdepends
      obtain ⟨⟨st₁, deps⟩, -, heq⟩ := Option.bind_eq_some_iff.mp h
      cases heq
      rw [next_of_getDepends m hdepends]
      exact iff_of_false (Option.some_ne_none _) hne

/-- One package that depends on others. -/
theorem collect_ends_pkg {n : ℕ} {rootpkg : Name} (hn : m.packages.card < n)
    (hnext : next m rootpkg ≠ []) :
    ∃ st deps, collect m n (.pkg rootpkg) = some (st, some deps) := by
  have hle := unmarked_le_card m.packages []
  obtain ⟨⟨st, deps⟩, hr⟩ :=
    getAllDepends_ends (m := m) n ⟨[], []⟩ rootpkg (Nat.lt_of_le_of_lt hle hn)
  have hsome : deps ≠ none := mt (eq_none_iff hr List.not_mem_nil).mp hnext
  obtain ⟨deps, rfl⟩ := Option.ne_none_iff_exists'.mp hsome
  exact ⟨st, deps, hr⟩

/-- What is there to be printed. -/
structure Gathered (m : Makefiles) (mode : Mode) (st : State) (deps : List Dependency) : Prop where
  nodup : st.allpkgs.Nodup
  mem_allpkgs : ∀ p, p ∈ st.allpkgs ↔ mode = .full ∧ p = all ∨ Reached m mode p
  mem_deps : ∀ p d, (p, d) ∈ deps ↔
    mode = .full ∧ p = all ∧ d ∈ roots m mode ∨ Reached m mode p ∧ d ∈ next m p

theorem gathered_pkg {n : ℕ} {rootpkg : Name} {st : State} {deps : List Dependency}
    (h : collect m n (.pkg rootpkg) = some (st, some deps)) :
    Gathered m (.pkg rootpkg) st deps := by
  have hadds := getAllDepends_adds n _ rootpkg _ h
  have hmem : ∀ p, p ∈ st.allpkgs ↔ Reached m (.pkg rootpkg) p := fun p =>
    (hadds.explores.mem_iff (by simp)).trans (by simp [Reached, roots])
  refine ⟨hadds.explores.nodup List.nodup_nil, fun p => by simp [hmem], fun p d => ?_⟩
  have hdeps := hadds.mem_deps p d
  simpa [hmem] using hdeps

theorem gathered_full {n : ℕ} {st : State} {deps : List Dependency}
    (hall : ¬ Reached m .full all) (h : collect m n .full = some (st, some deps)) :
    Gathered m .full st deps := by
  obtain ⟨⟨st₁, deps₁⟩, hfold, heq⟩ := Option.bind_eq_some_iff.mp h
  cases heq
  obtain ⟨new, hnew, inner, hadds, hdeps⟩ := foldlM_adds (R := AddsTargets m) AddsTargets.nil
    AddsTargets.cons addTarget_adds (m.targets.map (·.text)) _ _ _ (getTargets_eq m ▸ hfold)
  obtain rfl : deps = new := hnew.trans (List.nil_append new)
  have hseen : ∀ p ∈ [all], ¬ Reached m .full p := by
    rintro p hp
    rw [List.mem_singleton.mp hp]
    exact hall
  have hmem : ∀ p, p ∈ st.allpkgs ↔ p = all ∨ Reached m .full p := fun p => by
    rw [hadds.explores.mem_iff hseen, List.mem_singleton]
    rfl
  have hnew : ∀ p, (p ∈ st.allpkgs ∧ p ∉ [all]) ↔ Reached m .full p := by
    intro p
    rw [hmem, List.mem_singleton]
    constructor
    · rintro ⟨rfl | hp, hne⟩
      · exact absurd rfl hne
      · exact hp
    · intro hp
      exact ⟨.inr hp, fun heq => hall (heq ▸ hp)⟩
  refine ⟨hadds.explores.nodup (List.nodup_singleton all), fun p => by simp [hmem], fun p d => ?_⟩
  rw [hdeps, hadds.mem_deps, hnew, or_comm]
  refine or_congr_left ⟨?_, ?_⟩
  · rintro ⟨tg, htg, heq⟩
    cases heq
    exact ⟨rfl, rfl, htg⟩
  · rintro ⟨-, rfl, hd⟩
    exact ⟨d, hd, rfl⟩

theorem gathered_of_collect {n : ℕ} {mode : Mode} {st : State} {deps : List Dependency}
    (hall : mode = .full → ¬ Reached m mode all)
    (h : collect m n mode = some (st, some deps)) : Gathered m mode st deps := by
  cases mode with
  | pkg rootpkg => exact gathered_pkg h
  | full => exact gathered_full (hall rfl) h

end

/-! ### The graph that is printed -/

/-- The script comes to its end with `out`; the set of the dependencies has no order of its own. -/
def Prints (m : Makefiles) (mode : Mode) (out : List Char) : Prop :=
  ∃ n st deps es, collect m n mode = some (st, some deps) ∧ es.Perm deps.dedup ∧
    out = printGraph mode st es

/-- `dot` keeps the packages to be drawn apart by their names without the hyphens. -/
structure Separate (m : Makefiles) (mode : Mode) : Prop where
  isId : ∀ p, Reached m mode p → Dot.IsId (pkgNodeName p)
  distinct : ∀ p q, Reached m mode p → Reached m mode q → pkgNodeName p = pkgNodeName q → p = q
  ne_all : mode = .full → ∀ p, Reached m mode p → pkgNodeName p ≠ all

def label (pkg : Name) : Name := if pkg = all then "ALL".toList else pkg

/-- The label of a package; that of the whole is there in full mode only. -/
def caption : Mode → Name → Name
  | .full, p => p
  | .pkg _, p => label p

/-- A node for each package that is reached, and that of the whole in full mode, each labelled with
what it is the node of; an edge for each dependency. -/
structure Draws (m : Makefiles) (mode : Mode) (ss : List Dot.Stmt) : Prop where
  mem_nodes : ∀ a, a ∈ Dot.nodes ss ↔
    mode = .full ∧ a = all ∨ ∃ p, Reached m mode p ∧ a = pkgNodeName p
  labels : ∀ p, Reached m mode p → Dot.labels (pkgNodeName p) ss = [caption mode p]
  labels_all : mode = .full → Dot.labels all ss = ["ALL".toList]
  nodup_edges : (Dot.edges ss).Nodup
  mem_edges : ∀ a b, (a, b) ∈ Dot.edges ss ↔
    (mode = .full ∧ a = all ∧ ∃ d ∈ roots m mode, b = pkgNodeName d) ∨
      ∃ p, Reached m mode p ∧ a = pkgNodeName p ∧ ∃ d ∈ next m p, b = pkgNodeName d

/-- The script ends without an error, and whatever it prints is read by `dot` as the graph. -/
def Right (m : Makefiles) (mode : Mode) : Prop :=
  (∃ out, Prints m mode out) ∧
    ∀ out, Prints m mode out → ∃ ss, Dot.read out = some ss ∧ Draws m mode ss

/-! ### The lines -/

theorem reads_edgeLine {dep : Dependency} (h : Dot.IsId (pkgNodeName dep.1))
    (h' : Dot.IsId (pkgNodeName dep.2)) :
    Dot.Reads (edgeLine dep) [.edge (pkgNodeName dep.1) (pkgNodeName dep.2)] := by
  intro rest
  have htext : edgeLine dep ++ rest =
      pkgNodeName dep.1 ++ ' ' :: ("->".toList ++ ' ' :: (pkgNodeName dep.2 ++ '\n' :: rest)) := by
    simp [edgeLine]
  rw [htext, h.lex rfl, Dot.lex_word (by decide) rfl, h'.lex rfl]
  rfl

theorem reads_labelLine {node label : Name} (h : Dot.IsId node) (hquote : '"' ∉ label)
    (hescape : '\\' ∉ label) :
    Dot.Reads (labelLine node label) [.node node [("label".toList, label)]] := by
  intro rest
  have htext : labelLine node label ++ rest =
      node ++ ' ' :: ("[label".toList ++ ' ' :: ("=".toList ++ ' ' ::
        ('"' :: label ++ '"' :: ("]".toList ++ '\n' :: rest)))) := by
    simp [labelLine]
  rw [htext, h.lex rfl, Dot.lex_word (by decide) rfl, Dot.lex_word (by decide) rfl,
    Dot.lex_quoted hquote hescape, Dot.lex_word (by decide) rfl]
  rfl

def colors : List Name := ["red".toList, "lightblue".toList, "grey".toList]

theorem reads_colorLine {node color : Name} (h : Dot.IsId node) (hcolor : color ∈ colors) :
    Dot.Reads (colorLine node color)
      [.node node [("color".toList, color), ("style".toList, "filled".toList)]] := by
  intro rest
  have htext : colorLine node color ++ rest =
      node ++ ' ' :: (("[color=".toList ++ color ++ ",style=filled]".toList) ++ '\n' :: rest) := by
    simp [colorLine]
  simp only [colors, List.mem_cons, List.not_mem_nil, or_false] at hcolor
  rw [htext, h.lex rfl]
  rcases hcolor with rfl | rfl | rfl <;> rw [Dot.lex_word (by decide) rfl] <;> rfl

/-! ### The statements that are read -/

def color (mode : Mode) (st : State) (pkg : Name) : Name :=
  if pkg = all then "lightblue".toList
  else if st.unknownpkgs.contains pkg then "red".toList
  else if mode = .pkg pkg then "lightblue".toList
  else "grey".toList

def nodeStmts (mode : Mode) (st : State) (pkg : Name) : List Dot.Stmt :=
  [.node (pkgNodeName pkg) [("label".toList, label pkg)]] ++
    [.node (pkgNodeName pkg) [("color".toList, color mode st pkg), ("style".toList, "filled".toList)]]

def edgeStmt (dep : Dependency) : Dot.Stmt := .edge (pkgNodeName dep.1) (pkgNodeName dep.2)

def graphStmts (mode : Mode) (st : State) (es : List Dependency) : List Dot.Stmt :=
  es.map edgeStmt ++ st.allpkgs.flatMap (nodeStmts mode st)

section
variable {m : Makefiles} {mode : Mode} {st : State} {deps : List Dependency}

theorem color_mem (mode : Mode) (st : State) (pkg : Name) : color mode st pkg ∈ colors := by
  unfold color colors
  split_ifs <;> simp

theorem nodeLines_eq (mode : Mode) (st : State) (pkg : Name) : nodeLines mode st pkg =
    labelLine (pkgNodeName pkg) (label pkg) ++
      colorLine (pkgNodeName pkg) (color mode st pkg) := by
  unfold nodeLines label color
  by_cases hall : pkg = all
  · rw [if_pos hall, if_pos hall, if_pos hall, hall]
    rfl
  · rw [if_neg hall, if_neg hall, if_neg hall]
    split_ifs <;> rfl

/-- A package whose node has a name of `dot` has no character that ends the quotes. -/
theorem not_mem_label {pkg : Name} (h : Dot.IsId (pkgNodeName pkg)) {c : Char} (hc : c ≠ '-')
    (hword : Dot.isWordChar c = false) : c ∉ label pkg := by
  unfold label
  split
  · intro hmem
    have hall : "ALL".toList.all Dot.isWordChar = true := rfl
    exact Bool.false_ne_true (hword.symm.trans (List.all_eq_true.mp hall c hmem))
  · exact fun hmem => h.not_mem hword (List.mem_filter.mpr ⟨hmem, bne_iff_ne.mpr hc⟩)

theorem reads_nodeLines {pkg : Name} (h : Dot.IsId (pkgNodeName pkg)) :
    Dot.Reads (nodeLines mode st pkg) (nodeStmts mode st pkg) := by
  rw [nodeLines_eq]
  have hlabel := reads_labelLine h (not_mem_label h (by decide) (by decide))
    (not_mem_label h (by decide) (by decide))
  exact hlabel.append (reads_colorLine h (color_mem mode st pkg))

/-- What is printed is read as the statements. -/
theorem read_printGraph (hpkgs : ∀ p ∈ st.allpkgs, Dot.IsId (pkgNodeName p)) {es : List Dependency}
    (hes : ∀ e ∈ es, e.1 ∈ st.allpkgs ∧ e.2 ∈ st.allpkgs) :
    Dot.read (printGraph mode st es) = some (graphStmts mode st es) := by
  have hedges : Dot.Reads (es.flatMap edgeLine) (es.flatMap fun e => [edgeStmt e]) :=
    .flatMap fun e he => reads_edgeLine (hpkgs _ (hes e he).1) (hpkgs _ (hes e he).2)
  have hnodes : Dot.Reads (st.allpkgs.flatMap (nodeLines mode st))
      (st.allpkgs.flatMap (nodeStmts mode st)) :=
    .flatMap fun p hp => reads_nodeLines (hpkgs p hp)
  have hname : Dot.IsId "G".toList := by decide
  have hread := (hedges.append hnodes).read hname
  rwa [← List.map_eq_flatMap] at hread

theorem mem_nodes_graphStmts (es : List Dependency) (a : Name) :
    a ∈ Dot.nodes (graphStmts mode st es) ↔
      (∃ e ∈ es, a = pkgNodeName e.1 ∨ a = pkgNodeName e.2) ∨ ∃ p ∈ st.allpkgs, a = pkgNodeName p := by
  have hnode : ∀ p, Dot.nodes (nodeStmts mode st p) = [pkgNodeName p, pkgNodeName p] := fun _ => rfl
  rw [graphStmts, Dot.nodes, List.flatMap_append, List.mem_append, List.flatMap_assoc,
    List.flatMap_map, List.mem_flatMap, List.mem_flatMap]
  refine or_congr ?_ (exists_congr fun p => and_congr_right fun _ => ?_)
  · simp [edgeStmt, Dot.Stmt.nodes]
  · rw [← Dot.nodes, hnode]
    simp

theorem edges_graphStmts (es : List Dependency) : Dot.edges (graphStmts mode st es) =
    es.map fun e => (pkgNodeName e.1, pkgNodeName e.2) := by
  have hnodes : Dot.edges (st.allpkgs.flatMap (nodeStmts mode st)) = [] := by
    rw [Dot.edges, List.filterMap_flatMap]
    exact List.flatMap_eq_nil_iff.mpr fun _ _ => rfl
  have hedges : Dot.edges (es.map edgeStmt) =
      es.map fun e => (pkgNodeName e.1, pkgNodeName e.2) := by
    rw [Dot.edges, List.filterMap_map, ← List.filterMap_eq_map]
    rfl
  rw [graphStmts, Dot.edges, List.filterMap_append]
  exact (congrArg₂ (· ++ ·) hedges hnodes).trans (List.append_nil _)

theorem labels_nodeStmts (a pkg : Name) : Dot.labels a (nodeStmts mode st pkg) =
    if pkgNodeName pkg = a then [label pkg] else [] := by
  by_cases ha : pkgNodeName pkg = a <;> simp [Dot.labels, nodeStmts, Dot.Stmt.labels, ha]

theorem labels_graphStmts (es : List Dependency) (a : Name) : Dot.labels a (graphStmts mode st es) =
    (st.allpkgs.filter (pkgNodeName · = a)).map label := by
  have hedges : Dot.labels a (es.map edgeStmt) = [] := by
    rw [Dot.labels, List.flatMap_map]
    exact List.flatMap_eq_nil_iff.mpr fun _ _ => rfl
  rw [graphStmts, Dot.labels, List.flatMap_append, ← Dot.labels, hedges, List.nil_append,
    List.flatMap_assoc]
  induction st.allpkgs with
  | nil => rfl
  | cons p ps ih =>
    rw [List.flatMap_cons, ih, ← Dot.labels, labels_nodeStmts, List.filter_cons]
    split <;> simp [*]

theorem Gathered.eq_of_nodeName (h : Gathered m mode st deps) (hsep : Separate m mode) {p q : Name}
    (hp : p ∈ st.allpkgs) (hq : q ∈ st.allpkgs) (heq : pkgNodeName p = pkgNodeName q) : p = q := by
  rcases (h.mem_allpkgs p).mp hp with ⟨hfull, rfl⟩ | hp <;>
    rcases (h.mem_allpkgs q).mp hq with ⟨hfull', rfl⟩ | hq
  · rfl
  · exact absurd heq.symm (hsep.ne_all hfull q hq)
  · exact absurd heq (hsep.ne_all hfull' p hp)
  · exact hsep.distinct p q hp hq heq

/-- A node is labelled for its package only. -/
theorem Gathered.labels (h : Gathered m mode st deps) (hsep : Separate m mode) {p : Name}
    (hp : p ∈ st.allpkgs) (es : List Dependency) :
    Dot.labels (pkgNodeName p) (graphStmts mode st es) = [label p] := by
  have hfilter : st.allpkgs.filter (pkgNodeName · = pkgNodeName p) = st.allpkgs.filter (· = p) := by
    refine List.filter_congr fun q hq => decide_eq_decide.mpr ⟨fun heq => ?_, fun heq => heq ▸ rfl⟩
    exact h.eq_of_nodeName hsep hq hp heq
  rw [labels_graphStmts, hfilter, List.filter_eq, List.count_eq_one_of_mem h.nodup hp]
  rfl

/-- Both ends of an edge are drawn. -/
theorem Gathered.mem_of_dependency (h : Gathered m mode st deps) {p d : Name} (he : (p, d) ∈ deps) :
    p ∈ st.allpkgs ∧ d ∈ st.allpkgs := by
  rcases (h.mem_deps p d).mp he with ⟨hfull, hp, hd⟩ | ⟨hp, hd⟩
  · exact ⟨(h.mem_allpkgs p).mpr (.inl ⟨hfull, hp⟩), (h.mem_allpkgs d).mpr (.inr (.of_mem hd))⟩
  · exact ⟨(h.mem_allpkgs p).mpr (.inr hp), (h.mem_allpkgs d).mpr (.inr (hp.tail hd))⟩

theorem isId_of_mem_allpkgs (h : Gathered m mode st deps) (hsep : Separate m mode) :
    ∀ p ∈ st.allpkgs, Dot.IsId (pkgNodeName p) := by
  intro p hp
  rcases (h.mem_allpkgs p).mp hp with ⟨-, rfl⟩ | hp
  · decide
  · exact hsep.isId p hp

theorem draws_of_gathered (h : Gathered m mode st deps) (hsep : Separate m mode)
    {es : List Dependency} (hes : es.Perm deps.dedup) : Draws m mode (graphStmts mode st es) := by
  have hmem := h.mem_allpkgs
  have hdeps : ∀ e, e ∈ es ↔ e ∈ deps := fun e => hes.mem_iff.trans List.mem_dedup
  have hes' : ∀ p d, (p, d) ∈ es ↔
      mode = .full ∧ p = all ∧ d ∈ roots m mode ∨ Reached m mode p ∧ d ∈ next m p := fun p d =>
    (hdeps (p, d)).trans (h.mem_deps p d)
  refine ⟨fun a => ?_, fun p hp => ?_, fun hfull => ?_, ?_, fun a b => ?_⟩
  · have hends : (∃ e ∈ es, a = pkgNodeName e.1 ∨ a = pkgNodeName e.2) →
        ∃ p ∈ st.allpkgs, a = pkgNodeName p := by
      rintro ⟨e, he, heq⟩
      obtain ⟨hp, hd⟩ := h.mem_of_dependency ((hdeps e).mp he)
      exact heq.elim (fun heq => ⟨_, hp, heq⟩) fun heq => ⟨_, hd, heq⟩
    rw [mem_nodes_graphStmts, or_iff_right_of_imp hends]
    constructor
    · rintro ⟨p, hp, rfl⟩
      rcases (hmem p).mp hp with ⟨hfull, rfl⟩ | hp
      · exact .inl ⟨hfull, rfl⟩
      · exact .inr ⟨p, hp, rfl⟩
    · rintro (⟨hfull, rfl⟩ | ⟨p, hp, rfl⟩)
      · exact ⟨all, (hmem all).mpr (.inl ⟨hfull, rfl⟩), rfl⟩
      · exact ⟨p, (hmem p).mpr (.inr hp), rfl⟩
  · rw [h.labels hsep ((hmem p).mpr (.inr hp))]
    cases mode with
    | pkg rootpkg => rfl
    | full =>
      have hne : p ≠ all := fun heq => hsep.ne_all rfl p hp (congrArg pkgNodeName heq)
      rw [label, if_neg hne]
      rfl
  · exact h.labels hsep ((hmem all).mpr (.inl ⟨hfull, rfl⟩)) es
  · rw [edges_graphStmts]
    refine (hes.nodup_iff.mpr (List.nodup_dedup deps)).map_on ?_
    rintro ⟨p, d⟩ he ⟨p', d'⟩ he' heq
    obtain ⟨hp, hd⟩ := h.mem_of_dependency ((hdeps _).mp he)
    obtain ⟨hp', hd'⟩ := h.mem_of_dependency ((hdeps _).mp he')
    obtain ⟨heqp, heqd⟩ := Prod.mk.inj heq
    rw [h.eq_of_nodeName hsep hp hp' heqp, h.eq_of_nodeName hsep hd hd' heqd]
  · rw [edges_graphStmts, List.mem_map]
    constructor
    · rintro ⟨⟨p, d⟩, he, heq⟩
      obtain ⟨rfl, rfl⟩ := Prod.mk.inj heq
      rcases (hes' p d).mp he with ⟨hfull, rfl, hd⟩ | ⟨hp, hd⟩
      · exact .inl ⟨hfull, rfl, d, hd, rfl⟩
      · exact .inr ⟨p, hp, rfl, d, hd, rfl⟩
    · rintro (⟨hfull, rfl, d, hd, rfl⟩ | ⟨p, hp, rfl, d, hd, rfl⟩)
      · exact ⟨(all, d), (hes' all d).mpr (.inl ⟨hfull, rfl, hd⟩), rfl⟩
      · exact ⟨(p, d), (hes' p d).mpr (.inr ⟨hp, hd⟩), rfl⟩

/-- Two packages with one node have different labels. -/
theorem eq_of_caption {p q : Name} (hnode : pkgNodeName p = pkgNodeName q)
    (hcaption : caption mode p = caption mode q) : p = q := by
  have hall : pkgNodeName "ALL".toList ≠ pkgNodeName all := by decide
  cases mode with
  | full => exact hcaption
  | pkg rootpkg =>
    replace hcaption : label p = label q := hcaption
    unfold label at hcaption
    split_ifs at hcaption with hp hq hq
    · exact hp.trans hq.symm
    · exact absurd (hcaption ▸ hp ▸ hnode.symm) hall
    · exact absurd (hcaption ▸ hq ▸ hnode) hall
    · exact hcaption

/-- A graph that is right is one whose nodes are kept apart. -/
theorem separate_of_draws {out : List Char} {ss : List Dot.Stmt} (hread : Dot.read out = some ss)
    (h : Draws m mode ss) : Separate m mode where
  isId p hp := Dot.isId_of_read hread ((h.mem_nodes _).mpr (.inr ⟨p, hp, rfl⟩))
  distinct p q hp hq heq := by
    have hlabels : [caption mode p] = [caption mode q] := by
      rw [← h.labels p hp, ← h.labels q hq, heq]
    exact eq_of_caption heq (List.singleton_inj.mp hlabels)
  ne_all hfull p hp heq := by
    subst hfull
    have hlabels := h.labels p hp
    rw [heq, h.labels_all rfl] at hlabels
    have hp : "ALL".toList = p := List.singleton_inj.mp hlabels
    exact absurd (hp ▸ heq) (by decide)

/-- The script draws the graph exactly if the names are identifiers that stay apart and, where it is
given a package, this has a dependency. -/
theorem draws_iff (m : Makefiles) (mode : Mode) :
    Right m mode ↔ Separate m mode ∧ ∀ rootpkg, mode = .pkg rootpkg → next m rootpkg ≠ [] := by
  constructor
  · rintro ⟨⟨out, hout⟩, hdraws⟩
    obtain ⟨ss, hread, hss⟩ := hdraws out hout
    refine ⟨separate_of_draws hread hss, ?_⟩
    rintro rootpkg rfl
    obtain ⟨n, st, deps, es, hcollect, -, -⟩ := hout
    exact mt (eq_none_iff hcollect List.not_mem_nil).mpr (Option.some_ne_none deps)
  · rintro ⟨hsep, hnext⟩
    have hall : mode = .full → ¬ Reached m mode all := fun hfull h => hsep.ne_all hfull all h rfl
    constructor
    · have hcollect : ∃ st deps, collect m (m.packages.card + 1) mode = some (st, some deps) := by
        cases mode with
        | full => exact collect_ends_full (Nat.lt_succ_self _)
        | pkg rootpkg => exact collect_ends_pkg (Nat.lt_succ_self _) (hnext rootpkg rfl)
      obtain ⟨st, deps, hcollect⟩ := hcollect
      exact ⟨_, _, st, deps, deps.dedup, hcollect, .refl _, rfl⟩
    · rintro out ⟨n, st, deps, es, hcollect, hes, rfl⟩
      have hgathered := gathered_of_collect hall hcollect
      refine ⟨_, read_printGraph (isId_of_mem_allpkgs hgathered hsep) fun e he => ?_,
        draws_of_gathered hgathered hsep hes⟩
      exact hgathered.mem_of_dependency (List.mem_dedup.mp (hes.mem_iff.mp he))

end

/-- `host-m4`, which needs nothing. -/
def hostM4 : Makefiles where
  targets := []
  depends p := if p = "host-m4".toList then some [] else none
  packages := {"host-m4".toList}
  mem_packages p ds h := by
    split at h
    · rename_i hp
      exact Finset.mem_singleton.mpr hp
    · cases h

/-- `set(None)` is an error. -/
theorem draws_hostM4 : ¬ ∀ (m : Makefiles) (mode : Mode), Right m mode := by
  intro h
  obtain ⟨⟨out, n, st, deps, es, hcollect, -, -⟩, -⟩ := h hostM4 (.pkg "host-m4".toList)
  have hnext : next hostM4 "host-m4".toList = [] := by decide
  exact Option.some_ne_none deps ((eq_none_iff hcollect List.not_mem_nil).mpr hnext)

end Dir842.GraphDepends
