import Dir842.Build.GenHashes
import Mathlib.Data.Char
import Mathlib.Data.List.Dedup
import Mathlib.Data.List.Sort
import Mathlib.Logic.Relation

/-!
# The packages of `make source` (`Makefile`)

`source` has the target `<package>-source` of the selected packages and of host packages as
prerequisites. `Makefile` looks for the host packages in the dependencies of the selected ones.
-/

namespace Dir842.SourceTargets
open GenHashes (uppercase)

abbrev Name := List Char

/-- The words in the values of the variables. -/
abbrev Vars := List Char → List Name

/-- `<PKG>_DEPENDENCIES`, which is what the build of the package follows too. -/
def dependencies (vars : Vars) (p : Name) : List Name :=
  vars (uppercase p ++ "_DEPENDENCIES".toList)

/-- `$(sort list)` -/
def sort (l : List Name) : List Name := l.dedup.insertionSort (· ≤ ·)

/-- `host-%` -/
def isHost (p : Name) : Bool := "host-".toList.isPrefixOf p

/-- `$(foreach dep,$(addsuffix _DEPENDENCIES,$(call UPPERCASE,names)),$($(dep)))` -/
def allDependencies (vars : Vars) (names : List Name) : List Name :=
  names.flatMap (dependencies vars)

def targetsHostDeps (vars : Vars) (targets : List Name) : List Name :=
  sort ((allDependencies vars targets).filter isHost)

def hostDeps (vars : Vars) (targets : List Name) : List Name :=
  sort (allDependencies vars (targetsHostDeps vars targets))

/-- `$(addsuffix -source,names)` -/
def addSource (names : List Name) : List (List Char) := names.map (· ++ "-source".toList)

def hostSource (vars : Vars) (targets : List Name) : List (List Char) :=
  addSource (sort (targetsHostDeps vars targets ++ hostDeps vars targets))

/-- The prerequisites of `source`. -/
def source (vars : Vars) (targets : List Name) : List (List Char) :=
  addSource targets ++ hostSource vars targets

/-- `<p>-source` is made, which fetches `p` and no other package. -/
def Fetches (vars : Vars) (targets : List Name) (p : Name) : Prop :=
  p ++ "-source".toList ∈ source vars targets

instance (vars : Vars) (targets : List Name) (p : Name) : Decidable (Fetches vars targets p) :=
  inferInstanceAs (Decidable (_ ∈ _))

/-- A chain of dependencies from a selected package. -/
def Reaches (vars : Vars) (targets : List Name) (p : Name) : Prop :=
  ∃ t ∈ targets, Relation.ReflTransGen (fun p q => q ∈ dependencies vars p) t p

section
variable (vars : Vars) (targets : List Name) (p : Name)

theorem mem_sort {l : List Name} : p ∈ sort l ↔ p ∈ l := by
  rw [sort, List.mem_insertionSort, List.mem_dedup]

theorem mem_addSource {names : List Name} :
    p ++ "-source".toList ∈ addSource names ↔ p ∈ names :=
  List.mem_map_of_injective (List.append_left_injective _)

theorem mem_targetsHostDeps :
    p ∈ targetsHostDeps vars targets ↔ isHost p ∧ ∃ t ∈ targets, p ∈ dependencies vars t := by
  rw [targetsHostDeps, mem_sort, List.mem_filter, allDependencies, List.mem_flatMap, and_comm]

theorem mem_hostDeps :
    p ∈ hostDeps vars targets ↔
      ∃ h ∈ targetsHostDeps vars targets, p ∈ dependencies vars h := by
  rw [hostDeps, mem_sort, allDependencies, List.mem_flatMap]

theorem fetches_iff_mem :
    Fetches vars targets p ↔
      p ∈ targets ∨ p ∈ targetsHostDeps vars targets ∨ p ∈ hostDeps vars targets := by
  rw [Fetches, source, List.mem_append, mem_addSource, hostSource, mem_addSource, mem_sort,
    List.mem_append]

/-- What is fetched: the selected packages, the host packages they depend on, and what these host
packages depend on. -/
theorem fetches_iff :
    Fetches vars targets p ↔
      p ∈ targets ∨ (isHost p ∧ ∃ t ∈ targets, p ∈ dependencies vars t) ∨
        ∃ t ∈ targets, ∃ h ∈ dependencies vars t, isHost h ∧ p ∈ dependencies vars h := by
  rw [fetches_iff_mem, mem_targetsHostDeps, mem_hostDeps]
  refine or_congr_right (or_congr_right ⟨?_, ?_⟩)
  · rintro ⟨h, hh, hp⟩
    obtain ⟨hhost, t, ht, hth⟩ := (mem_targetsHostDeps vars targets h).mp hh
    exact ⟨t, ht, h, hth, hhost, hp⟩
  · rintro ⟨t, ht, h, hth, hhost, hp⟩
    exact ⟨h, (mem_targetsHostDeps vars targets h).mpr ⟨hhost, t, ht, hth⟩, hp⟩

theorem reaches_of_fetches (h : Fetches vars targets p) : Reaches vars targets p := by
  rcases (fetches_iff_mem vars targets p).mp h with hp | hp | hp
  · exact ⟨p, hp, .refl⟩
  · obtain ⟨-, t, ht, htp⟩ := (mem_targetsHostDeps vars targets p).mp hp
    exact ⟨t, ht, .single htp⟩
  · obtain ⟨h, hh, hhp⟩ := (mem_hostDeps vars targets p).mp hp
    obtain ⟨-, t, ht, hth⟩ := (mem_targetsHostDeps vars targets h).mp hh
    exact ⟨t, ht, .tail (.single hth) hhp⟩

/-- All chains are followed to their ends exactly if none leads out of what is fetched. -/
theorem forall_reaches_iff :
    (∀ p, Reaches vars targets p → Fetches vars targets p) ↔
      ∀ p, Fetches vars targets p → ∀ q ∈ dependencies vars p, Fetches vars targets q := by
  constructor
  · intro h p hp q hq
    obtain ⟨t, ht, htp⟩ := reaches_of_fetches vars targets p hp
    exact h q ⟨t, ht, htp.tail hq⟩
  · rintro h p ⟨t, ht, htp⟩
    induction htp with
    | refl => exact (fetches_iff_mem vars targets t).mpr (.inl ht)
    | tail _ hq ih => exact h _ ih _ hq

end

/-- The host packages that `mosquitto` needs, one after the other. -/
def mosquittoVars : Vars := fun v =>
  if v = "MOSQUITTO_DEPENDENCIES".toList then ["host-patchelf".toList, "toolchain".toList]
  else if v = "HOST_PATCHELF_DEPENDENCIES".toList then ["host-autoconf".toList]
  else if v = "HOST_AUTOCONF_DEPENDENCIES".toList then ["host-m4".toList, "host-libtool".toList]
  else if v = "HOST_LIBTOOL_DEPENDENCIES".toList then ["host-m4".toList]
  else []

set_option maxRecDepth 4000 in
/-- `host-m4` is three dependencies away. -/
theorem fetches_mosquitto :
    ¬ ∀ (vars : Vars) (targets : List Name) (p : Name),
      p ∈ targets ∨ isHost p ∧ Reaches vars targets p → Fetches vars targets p := by
  intro h
  have hreaches : Reaches mosquittoVars ["mosquitto".toList] "host-m4".toList := by
    have hpatchelf : "host-patchelf".toList ∈ dependencies mosquittoVars "mosquitto".toList := by
      decide
    have hautoconf :
        "host-autoconf".toList ∈ dependencies mosquittoVars "host-patchelf".toList := by
      decide
    have hm4 : "host-m4".toList ∈ dependencies mosquittoVars "host-autoconf".toList := by decide
    exact ⟨_, List.mem_singleton_self _, .tail (.tail (.single hpatchelf) hautoconf) hm4⟩
  exact absurd (h _ _ _ (.inr ⟨rfl, hreaches⟩)) (by decide)

end Dir842.SourceTargets
