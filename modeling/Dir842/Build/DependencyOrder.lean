import Dir842.Build.Stamps
import Dir842.Lib.DepthFirst
import Mathlib.Data.Finset.Filter
import Mathlib.Data.Fintype.Card

/-!
# The order of the packages (`Makefile.package.in`)

`GENTARGETS_INNER` for all the packages of a configuration: the targets of a package are those of
`Stamps`, and `$(1)-depends` has the packages of `_DEPENDENCIES` as prerequisites as well.
`.NOTPARALLEL` makes `make` go over the prerequisites of a target one after the other.
-/

namespace Dir842.Packages
open Stamps (Pkg Stamp Cmd Target prereqs recipe installStamps)
open DepthFirst
variable {Name : Type*}

/-- The packages with their dependencies, which are acyclic: there is no infinite chain of them. -/
structure Config (Name : Type*) where
  pkg : Name → Pkg
  /-- `_DEPENDENCIES` -/
  deps : Name → List Name
  acyclic : WellFounded fun q p => q ∈ deps p
  /-- `TARGETS`, the packages that are enabled. -/
  targets : List Name

/-- For finitely many packages it is enough that no package depends on itself. -/
theorem acyclic_of_finite [Finite Name] (deps : Name → List Name)
    (h : ∀ p, ¬ Relation.TransGen (fun q p => q ∈ deps p) p p) :
    WellFounded fun q p => q ∈ deps p := by
  have htrans : WellFounded (Relation.TransGen fun q p => q ∈ deps p) := by
    have : Std.Irrefl (Relation.TransGen fun q p => q ∈ deps p) := ⟨h⟩
    exact Finite.wellFounded_of_trans_of_irrefl _
  exact Subrelation.wf (fun hq => Relation.TransGen.single hq) htrans

inductive Node (Name : Type*)
  /-- `all`, with what it has to do with packages. -/
  | all
  | of (p : Name) (t : Target)
deriving DecidableEq

/-- The prerequisites, in their order. -/
def Config.next (c : Config Name) : Node Name → List (Node Name)
  | .all => c.targets.map (.of · .pkg)
  | .of p t =>
    (prereqs (c.pkg p) t).map (.of p) ++ if t = .depends then (c.deps p).map (.of · .pkg) else []

def Config.recipe (c : Config Name) : Node Name → List (Name × Cmd)
  | .all => []
  | .of p t => (Stamps.recipe (c.pkg p) t).map (p, ·)

/-- A bound on the length of the chains of prerequisites within a package. -/
def rank : Target → Nat
  | .rebuild | .reconfigure => 12
  | .pkg => 11
  | .install => 10
  | .installStaging | .installTarget | .installImages | .installHost => 9
  | .build => 8
  | .configure => 7
  | .patch => 6
  | .extract => 5
  | .source | .depends => 4
  | .rsync => 3
  | .stamp _ | .clean | .cleanForReconfigure => 2
  | .uninstall | .dirclean | .prepare => 1
  | .uninstalled | .cleaned | .dircleaned | .cleanForRebuild => 0

theorem rank_lt {p : Pkg} {t u : Target} (h : u ∈ prereqs p t) : rank u < rank t := by
  unfold prereqs at h
  repeat' split at h
  all_goals
    simp only [List.mem_cons, List.not_mem_nil, or_false] at h
    try rcases h with rfl | rfl | rfl
    all_goals decide

theorem wellFounded_next (c : Config Name) : WellFounded fun u t => u ∈ c.next t := by
  have hof : ∀ p t, Acc (fun u t => u ∈ c.next t) (Node.of p t) := by
    intro p
    induction p using c.acyclic.induction with
    | _ p ih =>
      intro t
      induction hr : rank t using Nat.strong_induction_on generalizing t with
      | _ r ihr =>
        refine .intro _ fun u hu => ?_
        rcases List.mem_append.mp hu with hu | hu
        · obtain ⟨v, hv, rfl⟩ := List.mem_map.mp hu
          exact ihr _ (hr ▸ rank_lt hv) v rfl
        · split at hu
          · obtain ⟨q, hq, rfl⟩ := List.mem_map.mp hu
            exact ih q hq .pkg
          · cases hu
  refine ⟨fun n => ?_⟩
  cases n with
  | of p t => exact hof p t
  | all =>
    refine .intro _ fun u hu => ?_
    obtain ⟨p, -, rfl⟩ := List.mem_map.mp hu
    exact hof p .pkg

def Config.graph (c : Config Name) : Graph (Node Name) := ⟨c.next, wellFounded_next c⟩

/-- The targets of a package that one asks for. -/
def named (p : Pkg) : Target → Bool
  | .patch | .extract | .source => !p.overrideSrcdir
  | .rsync => p.overrideSrcdir
  | .stamp _ | .uninstalled | .cleaned | .dircleaned | .prepare => false
  | _ => true

inductive Goal (c : Config Name)
  | all
  | of (p : Name) (t : Target) (h : named (c.pkg p) t = true)

def Goal.node {c : Config Name} : Goal c → Node Name
  | .all => .all
  | .of p t _ => .of p t

section
variable [DecidableEq Name]

/-- The targets that are made for a goal, in their order. -/
def Config.order (c : Config Name) (g : Goal c) : List (Node Name) := visit c.graph [] g.node

def Config.plan (c : Config Name) (g : Goal c) : List (Name × Cmd) :=
  (c.order g).flatMap c.recipe

structure State (Name : Type*) where
  stamps : Finset (Name × Stamp)
  /-- The steps that this run has executed, oldest first. -/
  ran : List (Name × Stamp) := []

def exec (st : State Name) : Name × Cmd → State Name
  | (p, .stamp s) =>
    if (p, s) ∈ st.stamps then st
    else { stamps := insert (p, s) st.stamps, ran := st.ran ++ [(p, s)] }
  | (p, .rm s) => { st with stamps := st.stamps.erase (p, s) }
  | (p, .rmDir) => { st with stamps := st.stamps.filter (·.1 ≠ p) }
  | (_, .run _) => st

def run (stamps : Finset (Name × Stamp)) (cmds : List (Name × Cmd)) : State Name :=
  cmds.foldl exec { stamps }

/-! ### What a run should do -/

/-- Every enabled install step is done. -/
def Installed (c : Config Name) (stamps : Finset (Name × Stamp)) (q : Name) : Prop :=
  ∀ s ∈ installStamps (c.pkg q), (q, s) ∈ stamps

/-- The place of a step in the package; nothing is said about the install steps among each other. -/
def stage : Stamp → Nat
  | .downloaded => 0
  | .extracted => 1
  | .patched | .rsynced => 2
  | .configured => 3
  | .built => 4
  | .stagingInstalled | .targetInstalled | .imagesInstalled | .hostInstalled => 5

/-- `needs p q`: the package `q` must be there when `p` is configured. -/
structure Ordered (c : Config Name) (needs : Name → Name → Prop) (stamps : Finset (Name × Stamp))
    (cmds : List (Name × Cmd)) : Prop where
  needed : ∀ pre p post, cmds = pre ++ (p, .stamp .configured) :: post →
    ∀ q, needs p q → Installed c (run stamps pre).stamps q
  once : (run stamps cmds).ran.Nodup
  steps : (run stamps cmds).ran.Pairwise fun a b => a.1 = b.1 → stage a.2 ≤ stage b.2

end

/-- The transitive closure of `_DEPENDENCIES`. -/
def Config.Depends (c : Config Name) : Name → Name → Prop :=
  Relation.TransGen fun p q => q ∈ c.deps p

/-- The dependencies that a chain of packages with an install step leads to. -/
inductive Config.Needs (c : Config Name) (p : Name) : Name → Prop
  | dep {q} : q ∈ c.deps p → c.Needs p q
  | tail {q r} : c.Needs p q → installStamps (c.pkg q) ≠ [] → r ∈ c.deps q → c.Needs p r

/-! ### Where the targets come from -/

/-- The prerequisites before the stamp file in the only target that has it as one. -/
def earlier (p : Pkg) : Stamp → List Target
  | .downloaded | .rsynced => []
  | .extracted => [.source]
  | .patched => [.extract]
  | .configured => if p.overrideSrcdir then [.depends] else [.patch, .depends]
  | .built => [.configure]
  | .stagingInstalled | .targetInstalled | .imagesInstalled | .hostInstalled => [.build]

theorem prereqs_eq_stamp {p : Pkg} {t : Target} {s : Stamp} {us vs : List Target}
    (h : prereqs p t = us ++ .stamp s :: vs) : us = earlier p s := by
  unfold prereqs at h
  repeat' split at h
  all_goals
    simp only [List.cons_eq_append_iff, List.nil_eq_append_iff, List.cons.injEq, reduceCtorEq,
      false_and, and_false, or_false, false_or, exists_const, Target.stamp.injEq] at h
  all_goals grind [earlier]

section
variable {c : Config Name} {p q : Name}

theorem next_eq_stamp {n : Node Name} {s : Stamp} {us vs : List (Node Name)}
    (h : c.next n = us ++ .of p (.stamp s) :: vs) :
    us = (earlier (c.pkg p) s).map (.of p) := by
  cases n with
  | all =>
    have hmem : Node.of p (.stamp s) ∈ c.next .all := by
      rw [h]
      exact List.mem_append_right _ (List.mem_cons_self ..)
    obtain ⟨q, -, he⟩ := List.mem_map.mp hmem
    cases he
  | of q t =>
    have hdeps : Node.of p (.stamp s) ∉
        if t = .depends then (c.deps q).map fun r => Node.of r .pkg else [] := by
      intro hmem
      split at hmem
      · obtain ⟨r, -, he⟩ := List.mem_map.mp hmem
        cases he
      · cases hmem
    rcases List.append_eq_append_iff.mp h with ⟨as, -, hB⟩ | ⟨bs, hA, hB⟩
    · refine absurd ?_ hdeps
      rw [hB]
      exact List.mem_append_right _ (List.mem_cons_self ..)
    · cases bs with
      | nil =>
        refine absurd ?_ hdeps
        rw [← List.nil_append (ite _ _ _), ← hB]
        exact List.mem_cons_self ..
      | cons b bs =>
        obtain ⟨rfl, -⟩ := List.cons.inj hB
        obtain ⟨A, A', hA', rfl, hmap⟩ := List.map_eq_append_iff.mp hA
        obtain ⟨a, A'', rfl, ha, -⟩ := List.map_eq_cons_iff.mp hmap
        cases ha
        rw [prereqs_eq_stamp hA']

theorem reaches_of_prereqs {t u : Target} (h : u ∈ prereqs (c.pkg p) t) :
    c.graph.Reaches (.of p t) (.of p u) :=
  .single (List.mem_append_left _ (List.mem_map_of_mem h))

theorem reaches_dep (h : q ∈ c.deps p) : c.graph.Reaches (.of p .depends) (.of q .pkg) := by
  refine .single (List.mem_append_right _ ?_)
  rw [if_pos rfl]
  exact List.mem_map_of_mem h

theorem exists_prereqs_install {p : Pkg} {s : Stamp} (h : s ∈ installStamps p) :
    ∃ t ∈ prereqs p .install, prereqs p t = [.build, .stamp s] := by
  rcases p with ⟨_ | _, _, _ | _, _ | _, _ | _⟩ <;> simp [installStamps] at h <;>
    simp [prereqs] <;> grind

theorem depends_mem_prereqs (p : Pkg) : .depends ∈ prereqs p .configure := by
  simp only [prereqs]
  split <;> simp

/-- An install step and what is built for it. -/
theorem reaches_install {s : Stamp} (h : s ∈ installStamps (c.pkg q)) :
    c.graph.Reaches (.of q .pkg) (.of q (.stamp s)) ∧
      c.graph.Reaches (.of q .pkg) (.of q .build) := by
  obtain ⟨t, ht, hprereqs⟩ := exists_prereqs_install h
  have hpkg : c.graph.Reaches (.of q .pkg) (.of q t) :=
    (reaches_of_prereqs (List.mem_singleton_self Target.install)).trans (reaches_of_prereqs ht)
  constructor
  · refine hpkg.trans (reaches_of_prereqs ?_)
    rw [hprereqs]
    exact List.mem_cons_of_mem _ (List.mem_singleton_self _)
  · refine hpkg.trans (reaches_of_prereqs ?_)
    rw [hprereqs]
    exact List.mem_cons_self ..

theorem reaches_depends (h : installStamps (c.pkg q) ≠ []) :
    c.graph.Reaches (.of q .pkg) (.of q .depends) := by
  obtain ⟨s, hs⟩ := List.exists_mem_of_ne_nil _ h
  have hconf : Target.configure ∈ prereqs (c.pkg q) .build := List.mem_cons_self ..
  exact (reaches_install hs).2.trans
    ((reaches_of_prereqs hconf).trans (reaches_of_prereqs (depends_mem_prereqs _)))

theorem Config.Needs.reaches (h : c.Needs p q) :
    c.graph.Reaches (.of p .depends) (.of q .pkg) := by
  induction h with
  | dep hq => exact reaches_dep hq
  | tail _ hne hr ih => exact ih.trans ((reaches_depends hne).trans (reaches_dep hr))

theorem node_ne_stamp (g : Goal c) (p : Name) (s : Stamp) : .of p (.stamp s) ≠ g.node := by
  cases g with
  | all => exact nofun
  | of q t h =>
    rintro ⟨⟩
    cases h

/-! ### The targets of a package with and without `_OVERRIDE_SRCDIR` -/

/-- What is made for the package at all. -/
def fits (p : Pkg) : Target → Bool
  | .patch | .extract | .source
  | .stamp .downloaded | .stamp .extracted | .stamp .patched => !p.overrideSrcdir
  | .rsync | .stamp .rsynced => p.overrideSrcdir
  | _ => true

theorem fits_of_mem_prereqs {p : Pkg} {t u : Target} (hu : u ∈ prereqs p t)
    (ht : fits p t = true) : fits p u = true := by
  revert hu
  unfold prereqs
  repeat' split
  all_goals simp only [List.mem_cons, List.not_mem_nil, or_false, false_imp_iff]
  all_goals grind [fits]

def Fits (c : Config Name) : Node Name → Prop
  | .all => True
  | .of p t => fits (c.pkg p) t = true

theorem fits_of_reaches {n u : Node Name} (hu : c.graph.Reaches n u) (hn : Fits c n) :
    Fits c u := by
  induction hu with
  | refl => exact hn
  | @tail n u _ hu ih =>
    cases n with
    | all =>
      obtain ⟨p, -, rfl⟩ := List.mem_map.mp hu
      rfl
    | of p t =>
      rcases List.mem_append.mp hu with hu | hu
      · obtain ⟨v, hv, rfl⟩ := List.mem_map.mp hu
        exact fits_of_mem_prereqs hv ih
      · split at hu
        · obtain ⟨q, -, rfl⟩ := List.mem_map.mp hu
          rfl
        · cases hu

theorem fits_goal (g : Goal c) : Fits c g.node := by
  cases g with
  | all => trivial
  | of p t h =>
    show fits (c.pkg p) t = true
    cases t <;> first | rfl | exact h | cases h

/-- A target that makes `r` brings the steps up to it if a prerequisite brings those before. -/
theorem reaches_stamp_of_prereqs {t u : Target} {s r : Stamp} (hu : u ∈ prereqs (c.pkg p) t)
    (hr : .stamp r ∈ prereqs (c.pkg p) t)
    (hlt : stage s < stage r → c.graph.Reaches (.of p u) (.of p (.stamp s)))
    (heq : stage s = stage r → s = r) (h : stage s ≤ stage r) :
    c.graph.Reaches (.of p t) (.of p (.stamp s)) := by
  rcases Nat.lt_or_eq_of_le h with h | h
  · exact (reaches_of_prereqs hu).trans (hlt h)
  · rw [heq h]
    exact reaches_of_prereqs hr

/-- What is asked for before a step brings all the steps of the stages before it. -/
theorem reaches_stage {s s' : Stamp} (hs : fits (c.pkg p) (.stamp s) = true)
    (hs' : fits (c.pkg p) (.stamp s') = true) (h : stage s < stage s') :
    ∃ t ∈ earlier (c.pkg p) s', c.graph.Reaches (.of p t) (.of p (.stamp s)) := by
  have hsource : stage s ≤ 0 → c.graph.Reaches (.of p .source) (.of p (.stamp s)) := by
    intro h
    have he : s = .downloaded := by cases s <;> simp [stage] at h ⊢
    rw [he]
    exact reaches_of_prereqs (List.mem_singleton_self _)
  have hextract : stage s ≤ 1 → c.graph.Reaches (.of p .extract) (.of p (.stamp s)) := by
    refine reaches_stamp_of_prereqs (u := .source) (r := .extracted) (by simp [prereqs])
      (by simp [prereqs]) (fun h => hsource (Nat.le_of_lt_succ h)) fun h => ?_
    cases s <;> simp [stage] at h ⊢
  have hsteps : stage s ≤ 2 → ∃ t ∈ earlier (c.pkg p) .configured,
      c.graph.Reaches (.of p t) (.of p (.stamp s)) := by
    intro h
    cases ho : (c.pkg p).overrideSrcdir with
    | true =>
      have he : s = .rsynced := by cases s <;> simp [stage, fits, ho] at h hs ⊢
      have hdepends : Target.rsync ∈ prereqs (c.pkg p) .depends := by simp [prereqs, ho]
      refine ⟨.depends, by simp [earlier, ho], (reaches_of_prereqs hdepends).trans ?_⟩
      rw [he]
      exact reaches_of_prereqs (List.mem_singleton_self _)
    | false =>
      refine ⟨.patch, by simp [earlier, ho], reaches_stamp_of_prereqs (u := .extract)
        (r := .patched) (by simp [prereqs]) (by simp [prereqs])
        (fun h => hextract (Nat.le_of_lt_succ h)) (fun h => ?_) h⟩
      cases s <;> simp [stage, fits, ho] at h hs ⊢
  have hconfigure : stage s ≤ 3 → c.graph.Reaches (.of p .configure) (.of p (.stamp s)) := by
    intro h
    rcases Nat.lt_or_eq_of_le h with h | h
    · obtain ⟨t, ht, hr⟩ := hsteps (Nat.le_of_lt_succ h)
      refine (reaches_of_prereqs ?_).trans hr
      revert ht
      simp only [earlier, prereqs]
      split <;> simp +contextual [or_imp]
    · have he : s = .configured := by cases s <;> simp [stage] at h ⊢
      rw [he]
      exact reaches_of_prereqs (by simp only [prereqs]; split <;> simp)
  have hbuild : stage s ≤ 4 → c.graph.Reaches (.of p .build) (.of p (.stamp s)) := by
    refine reaches_stamp_of_prereqs (u := .configure) (r := .built) (by simp [prereqs])
      (by simp [prereqs]) (fun h => hconfigure (Nat.le_of_lt_succ h)) fun h => ?_
    cases s <;> simp [stage] at h ⊢
  cases s' with
  | downloaded => exact absurd h (Nat.not_lt_zero _)
  | extracted => exact ⟨.source, List.mem_singleton_self _, hsource (Nat.le_of_lt_succ h)⟩
  | patched => exact ⟨.extract, List.mem_singleton_self _, hextract (Nat.le_of_lt_succ h)⟩
  | rsynced => cases s <;> simp_all [stage, fits]
  | configured => exact hsteps (Nat.le_of_lt_succ h)
  | built => exact ⟨.configure, List.mem_singleton_self _, hconfigure (Nat.le_of_lt_succ h)⟩
  | _ => exact ⟨.build, List.mem_singleton_self _, hbuild (Nat.le_of_lt_succ h)⟩

/-! ### Which targets remove stamps -/

inductive Kind
  /-- Only removes stamps. -/
  | removes
  /-- Only makes stamps. -/
  | makes
  /-- Removes stamps and makes the package after that. -/
  | remakes
deriving DecidableEq

def kind : Target → Kind
  | .rebuild | .reconfigure => .remakes
  | .uninstall | .clean | .dirclean | .cleanForReconfigure | .cleanForRebuild
  | .uninstalled | .cleaned | .dircleaned => .removes
  | _ => .makes

def Node.kind : Node Name → Kind
  | .all => .makes
  | .of _ t => Packages.kind t

theorem kind_of_mem_prereqs {p : Pkg} {t u : Target} (hu : u ∈ prereqs p t)
    (ht : kind t ≠ .remakes) : kind u = kind t := by
  revert hu
  unfold prereqs
  repeat' split
  all_goals simp only [List.mem_cons, List.not_mem_nil, or_false, false_imp_iff]
  all_goals grind [kind]

theorem kind_of_mem_next {n u : Node Name} (hu : u ∈ c.next n) (hn : n.kind ≠ .remakes) :
    u.kind = n.kind := by
  cases n with
  | all =>
    obtain ⟨p, -, rfl⟩ := List.mem_map.mp hu
    rfl
  | of p t =>
    rcases List.mem_append.mp hu with hu | hu
    · obtain ⟨v, hv, rfl⟩ := List.mem_map.mp hu
      exact kind_of_mem_prereqs hv hn
    · split at hu
      · obtain ⟨q, -, rfl⟩ := List.mem_map.mp hu
        subst t
        rfl
      · cases hu

theorem kind_of_reaches {n u : Node Name} (hu : c.graph.Reaches n u) (hn : n.kind ≠ .remakes) :
    u.kind = n.kind := by
  induction hu with
  | refl => rfl
  | tail _ hv ih => rw [kind_of_mem_next hv (ih ▸ hn), ih]

theorem next_of_remakes {n : Node Name} (hn : n.kind = .remakes) :
    ∃ p t, c.next n = [.of p t, .of p .pkg] ∧ kind t = .removes := by
  cases n with
  | all => cases hn
  | of p t =>
    cases t with
    | rebuild => exact ⟨p, _, rfl, rfl⟩
    | reconfigure => exact ⟨p, _, rfl, rfl⟩
    | _ => cases hn

theorem eq_of_stamp_mem_recipe {n : Node Name} {s : Stamp} (h : (p, .stamp s) ∈ c.recipe n) :
    n = .of p (.stamp s) := by
  cases n with
  | all => cases h
  | of q t =>
    obtain ⟨x, hx, he⟩ := List.mem_map.mp h
    obtain ⟨rfl, rfl⟩ := Prod.mk.inj he
    revert hx
    unfold Stamps.recipe
    repeat' split
    all_goals simp
    exact Eq.symm

theorem not_rm_of_mem_recipe {n : Node Name} {x : Name × Cmd} (h : x ∈ c.recipe n)
    (hn : n.kind ≠ .removes) : x.2 ≠ .rmDir ∧ ∀ s, x.2 ≠ .rm s := by
  cases n with
  | all => cases h
  | of q t =>
    obtain ⟨x, hx, rfl⟩ := List.mem_map.mp h
    show x ≠ _ ∧ ∀ s, x ≠ _
    revert hx hn
    unfold Stamps.recipe
    split
    all_goals simp +contextual [Node.kind, kind]

def stamped : Name × Cmd → Option (Name × Stamp)
  | (p, .stamp s) => some (p, s)
  | _ => none

def Node.stamp : Node Name → Option (Name × Stamp)
  | .of p (.stamp s) => some (p, s)
  | _ => none

theorem eq_of_stamp {n : Node Name} {s : Stamp} (h : n.stamp = some (p, s)) :
    n = .of p (.stamp s) := by
  unfold Node.stamp at h
  split at h
  · rw [Option.some.injEq, Prod.mk.injEq] at h
    rw [h.1, h.2]
  · cases h

theorem filterMap_stamped (ns : List (Node Name)) :
    (ns.flatMap c.recipe).filterMap stamped = ns.filterMap Node.stamp := by
  have hrecipe : ∀ n, (c.recipe n).filterMap stamped = n.stamp.toList := by
    intro n
    cases n with
    | all => rfl
    | of p t =>
      cases t with
      | cleanForRebuild =>
        simp only [Config.recipe, Stamps.recipe]
        split <;> rfl
      | _ => rfl
  rw [List.filterMap_flatMap, List.filterMap_eq_flatMap_toList]
  exact List.flatMap_congr fun n _ => hrecipe n

/-! ### The order of the targets -/

variable [DecidableEq Name]

/-- What removes stamps comes first. -/
theorem exists_order_eq (g : Goal c) : ∃ rs ms, c.order g = rs ++ ms ∧
    (∀ n ∈ rs, n.kind = .removes) ∧ ∀ n ∈ ms, n.kind ≠ .removes := by
  obtain ⟨ts, hts, hreach⟩ := exists_visit_eq (g := c.graph) [] g.node
  cases hk : g.node.kind with
  | removes =>
    refine ⟨ts, [], by rw [Config.order, hts, List.nil_append, List.append_nil], fun n hn => ?_,
      nofun⟩
    rw [kind_of_reaches (hreach n hn) (by rw [hk]; exact nofun), hk]
  | makes =>
    refine ⟨[], ts, hts, nofun, fun n hn => ?_⟩
    rw [kind_of_reaches (hreach n hn) (by rw [hk]; exact nofun), hk]
    exact nofun
  | remakes =>
    obtain ⟨p, t, hnext, ht⟩ := next_of_remakes (c := c) hk
    obtain ⟨rs, hrs, hrsr⟩ := exists_visit_eq (g := c.graph) [] (.of p t)
    obtain ⟨ms, hms, hmsr⟩ := exists_visit_eq (g := c.graph) rs (.of p .pkg)
    have horder : c.order g = rs ++ (ms ++ [g.node]) := by
      rw [Config.order, visit_eq, if_neg List.not_mem_nil]
      show (c.next g.node).foldl _ _ ++ _ = _
      rw [hnext, List.foldl_cons, List.foldl_cons, List.foldl_nil, hrs, List.nil_append, hms,
        List.append_assoc]
    have hkt : (Node.of p t).kind = .removes := ht
    refine ⟨rs, _, horder, fun n hn => ?_, fun n hn => ?_⟩
    · rw [kind_of_reaches (hrsr n hn) (by rw [hkt]; exact nofun), hkt]
    · rcases List.mem_append.mp hn with hn | hn
      · rw [kind_of_reaches (hmsr n hn) nofun]
        exact nofun
      · rw [List.mem_singleton.mp hn, hk]
        exact nofun

theorem exists_before_eq {g : Goal c} {pre post : List (Node Name)}
    (h : c.order g = pre ++ post) : ∃ rs ms, pre = rs ++ ms ∧
      (∀ n ∈ rs, n.kind = .removes) ∧ ∀ n ∈ ms, n.kind ≠ .removes := by
  obtain ⟨rs, ms, hsplit, hrs, hms⟩ := exists_order_eq g
  rcases List.append_eq_append_iff.mp (hsplit.symm.trans h) with ⟨as, hA, hB⟩ | ⟨bs, hA, hB⟩
  · refine ⟨rs, as, hA, hrs, fun m hm => hms m ?_⟩
    rw [hB]
    exact List.mem_append_left _ hm
  · exact ⟨pre, [], (List.append_nil _).symm, fun m hm => hrs m (hA ▸ List.mem_append_left _ hm),
      nofun⟩

/-- What has been made before a target is closed under prerequisites. -/
theorem closed_before {g : Goal c} {pre post : List (Node Name)} {n u v : Node Name}
    (h : c.order g = pre ++ n :: post) (hu : u ∈ pre) (hv : c.graph.Reaches u v) : v ∈ pre := by
  induction hv with
  | refl => exact hu
  | tail _ hw ih =>
    obtain ⟨pre₁, pre₂, rfl⟩ := List.append_of_mem ih
    rw [List.append_assoc, List.cons_append] at h
    exact List.mem_append_left _ (throughout_next g.node _ _ _ h _ hw)

/-- Before a stamp is made, so is all that the target asks for before it. -/
theorem mem_before {g : Goal c} {pre post : List (Node Name)} {s : Stamp} {t : Target}
    {v : Node Name} (h : c.order g = pre ++ .of p (.stamp s) :: post)
    (ht : t ∈ earlier (c.pkg p) s) (hv : c.graph.Reaches (.of p t) v) : v ∈ pre := by
  refine closed_before h ?_ hv
  rcases throughout_due g.node _ _ _ h with he | ⟨n, us, vs, hn, hus⟩
  · exact absurd he (node_ne_stamp g p s)
  · refine hus _ ?_
    rw [next_eq_stamp hn]
    exact List.mem_map_of_mem ht

theorem exists_of_flatMap_eq {α β : Type*} {f : α → List β} {as : List α} {pre post : List β}
    {x : β} (h : as.flatMap f = pre ++ x :: post) : ∃ as₁ a as₂ us vs,
      as = as₁ ++ a :: as₂ ∧ f a = us ++ x :: vs ∧ pre = as₁.flatMap f ++ us := by
  induction as generalizing pre with
  | nil => simp at h
  | cons a as ih =>
    rw [List.flatMap_cons] at h
    rcases List.append_eq_append_iff.mp h with ⟨bs, rfl, hrest⟩ | ⟨_ | ⟨b, bs⟩, ha, hrest⟩
    · obtain ⟨as₁, a', as₂, us, vs, rfl, hf, rfl⟩ := ih hrest
      exact ⟨a :: as₁, a', as₂, us, vs, rfl, hf, by rw [List.flatMap_cons, List.append_assoc]⟩
    · obtain ⟨as₁, a', as₂, us, vs, rfl, hf, hus⟩ := @ih [] hrest.symm
      refine ⟨a :: as₁, a', as₂, us, vs, rfl, hf, ?_⟩
      rw [List.flatMap_cons, List.append_assoc, ← hus, ha, List.append_nil, List.append_nil]
    · obtain ⟨rfl, -⟩ := List.cons.inj hrest
      exact ⟨[], a, as, pre, bs, rfl, ha, rfl⟩

/-! ### What a run does -/

/-- Where nothing is removed, all the stamps are made and none is lost. -/
theorem mem_foldl_exec {cmds : List (Name × Cmd)}
    (hcmds : ∀ x ∈ cmds, x.2 ≠ .rmDir ∧ ∀ s, x.2 ≠ .rm s) {st : State Name} {s : Stamp}
    (h : (p, .stamp s) ∈ cmds ∨ (p, s) ∈ st.stamps) : (p, s) ∈ (cmds.foldl exec st).stamps := by
  induction cmds generalizing st with
  | nil => exact h.resolve_left List.not_mem_nil
  | cons x cmds ih =>
    refine ih (fun y hy => hcmds y (List.mem_cons_of_mem _ hy)) ?_
    obtain ⟨hdir, hrm⟩ := hcmds x (List.mem_cons_self ..)
    rcases x with ⟨q, t | t | _ | t⟩
    · rw [List.mem_cons] at h
      simp only [exec]
      split
      · grind
      · simp only [Finset.mem_insert]
        grind
    · exact absurd rfl (hrm t)
    · exact absurd rfl hdir
    · rw [List.mem_cons] at h
      exact h.imp_left fun h => h.resolve_left (by simp)

theorem mem_of_mem_foldl_exec {cmds : List (Name × Cmd)} {st : State Name} {s : Stamp}
    (h : (p, s) ∈ (cmds.foldl exec st).stamps) : (p, s) ∈ st.stamps ∨ (p, .stamp s) ∈ cmds := by
  induction cmds generalizing st with
  | nil => exact .inl h
  | cons x cmds ih =>
    rcases ih h with h | h
    · rcases x with ⟨q, t | t | _ | t⟩
      · simp only [exec] at h
        split at h
        · exact .inl h
        · refine (Finset.mem_insert.mp h).symm.imp_right fun h => ?_
          obtain ⟨rfl, rfl⟩ := Prod.mk.inj h
          exact List.mem_cons_self ..
      · exact .inl (Finset.mem_of_mem_erase h)
      · exact .inl (Finset.mem_of_mem_filter _ h)
      · exact .inl h
    · exact .inr (List.mem_cons_of_mem _ h)

theorem ran_foldl_exec (st : State Name) (cmds : List (Name × Cmd)) :
    ∃ ran, (cmds.foldl exec st).ran = st.ran ++ ran ∧ ran.Sublist (cmds.filterMap stamped) := by
  induction cmds generalizing st with
  | nil => exact ⟨[], (List.append_nil _).symm, .slnil⟩
  | cons x cmds ih =>
    obtain ⟨ran, hran, hsub⟩ := ih (exec st x)
    rcases x with ⟨q, t | t | _ | t⟩
    · rw [List.foldl_cons, hran]
      show ∃ ran' : List _, _ ∧ ran'.Sublist ((q, t) :: cmds.filterMap stamped)
      simp only [exec]
      split
      · exact ⟨ran, rfl, hsub.cons _⟩
      · exact ⟨(q, t) :: ran, by rw [List.append_assoc, List.singleton_append], hsub.cons_cons _⟩
    all_goals exact ⟨ran, hran, hsub⟩

/-- The steps of a run are among the stamps of the goal, in the same order. -/
theorem ran_sublist (g : Goal c) (stamps : Finset (Name × Stamp)) (k : ℕ) :
    (run stamps ((c.plan g).take k)).ran.Sublist ((c.order g).filterMap Node.stamp) := by
  obtain ⟨ran, hran, hsub⟩ := ran_foldl_exec { stamps } ((c.plan g).take k)
  rw [run, hran, ← filterMap_stamped]
  exact hsub.trans ((List.take_sublist k _).filterMap _)

theorem nodup_stamps (g : Goal c) : ((c.order g).filterMap Node.stamp).Nodup := by
  refine List.Nodup.filterMap (fun n n' x hn hn' => ?_) (nodup_visit g.node List.nodup_nil)
  rw [eq_of_stamp hn, eq_of_stamp hn']

theorem pairwise_stamps (g : Goal c) : ((c.order g).filterMap Node.stamp).Pairwise
    fun a b => a.1 = b.1 → stage a.2 ≤ stage b.2 := by
  have hfits : ∀ n ∈ c.order g, Fits c n := fun n hn =>
    fits_of_reaches ((reaches_of_mem_visit hn).resolve_left List.not_mem_nil) (fits_goal g)
  have hthrough : Throughout (fun pre n => ∀ m ∈ pre, ∀ p s s', m = .of p (.stamp s) →
      n = .of p (.stamp s') → stage s ≤ stage s') (c.order g) := by
    rintro pre n post h m hm p s s' rfl rfl
    by_contra hlt
    -- the later one would have come before the earlier one, and then twice
    have hmem : Node.of p (.stamp s') ∈ c.order g := by simp [h]
    have hmem' : Node.of p (.stamp s) ∈ c.order g := by simp [h, hm]
    obtain ⟨t, ht, hreach⟩ := reaches_stage (hfits _ hmem) (hfits _ hmem') (Nat.lt_of_not_le hlt)
    obtain ⟨pre₁, pre₂, rfl⟩ := List.append_of_mem hm
    have h' : c.order g = pre₁ ++ .of p (.stamp s) :: (pre₂ ++ .of p (.stamp s') :: post) := by
      rw [h, List.append_assoc, List.cons_append]
    have hpre := mem_before h' ht hreach
    have hnodup : (c.order g).Nodup := nodup_visit g.node List.nodup_nil
    rw [h', List.nodup_append] at hnodup
    exact hnodup.2.2 _ hpre _ (by simp) rfl
  rw [List.pairwise_filterMap]
  refine hthrough.pairwise.imp fun {m n} h a ha b hb hab => ?_
  obtain ⟨p, s⟩ := a
  obtain ⟨q, s'⟩ := b
  subst hab
  exact h p s s' (eq_of_stamp ha) (eq_of_stamp hb)

/-- When a package is configured, what it needs has been installed. -/
theorem installed_of_needs {g : Goal c} {stamps : Finset (Name × Stamp)}
    {pre post : List (Name × Cmd)} (h : c.plan g = pre ++ (p, .stamp .configured) :: post)
    (hq : c.Needs p q) : Installed c (run stamps pre).stamps q := by
  obtain ⟨ns, n, ns', us, vs, horder, hrecipe, rfl⟩ := exists_of_flatMap_eq h
  obtain rfl : n = .of p (.stamp .configured) := eq_of_stamp_mem_recipe (by rw [hrecipe]; simp)
  obtain ⟨rs, ms, rfl, hrs, hms⟩ := exists_before_eq horder
  have hdepends : Target.depends ∈ earlier (c.pkg p) .configured := by
    simp only [earlier]
    split <;> simp
  intro s hs
  have hmem : Node.of q (.stamp s) ∈ rs ++ ms :=
    mem_before horder hdepends (hq.reaches.trans (reaches_install hs).1)
  have hmem' : Node.of q (.stamp s) ∈ ms :=
    (List.mem_append.mp hmem).resolve_left fun h => nomatch hrs _ h
  rw [run, List.flatMap_append, List.append_assoc, List.foldl_append]
  refine mem_foldl_exec (fun x hx => ?_) (.inl ?_)
  · rcases List.mem_append.mp hx with hx | hx
    · obtain ⟨n, hn, hx⟩ := List.mem_flatMap.mp hx
      exact not_rm_of_mem_recipe hx (hms n hn)
    · refine not_rm_of_mem_recipe (c := c) (n := .of p (.stamp .configured)) ?_ nofun
      rw [hrecipe]
      exact List.mem_append_left _ hx
  · exact List.mem_append_left _ (List.mem_flatMap.mpr ⟨_, hmem', List.mem_singleton_self _⟩)

/-- For every goal and all stamps at the start, however far the run gets. -/
theorem ordered_plan (c : Config Name) (g : Goal c) (stamps : Finset (Name × Stamp)) (k : ℕ) :
    Ordered c c.Needs stamps ((c.plan g).take k) where
  needed pre p post h q hq := by
    have hplan : c.plan g = pre ++ (p, .stamp .configured) :: (post ++ (c.plan g).drop k) := by
      rw [← List.cons_append, ← List.append_assoc, ← h, List.take_append_drop]
    exact installed_of_needs hplan hq
  once := (nodup_stamps g).sublist (ran_sublist g stamps k)
  steps := (pairwise_stamps g).sublist (ran_sublist g stamps k)

end

/-! ### A dependency behind a package that installs nothing -/

/-- The package 2 depends on 1 and 1 on 0, but 1 has no install step. -/
def chain : Config (Fin 3) where
  pkg p := ⟨.target, false, false, p != 1, false⟩
  deps p := if p = 2 then [1] else if p = 1 then [0] else []
  acyclic := by
    refine Subrelation.wf (fun {q p} h => ?_) (wellFounded_lt (α := Fin 3))
    revert q p
    decide
  targets := [2]

/-- What is reached without an install step of the package 1. -/
def Near : Node (Fin 3) → Prop
  | .all => True
  | .of p t => p = 2 ∨ p = 1 ∧ (t = .pkg ∨ t = .install ∨ t = .installStaging ∨
      t = .installTarget ∨ t = .installImages)

theorem near_of_reaches {n : Node (Fin 3)} (h : chain.graph.Reaches .all n) : Near n := by
  induction h with
  | refl => trivial
  | @tail n u _ hu ih =>
    cases n with
    | all =>
      obtain ⟨p, hp, rfl⟩ := List.mem_map.mp hu
      exact .inl (List.mem_singleton.mp hp)
    | of p t =>
      rcases List.mem_append.mp hu with hu | hu
      · obtain ⟨v, hv, rfl⟩ := List.mem_map.mp hu
        rcases ih with rfl | ⟨rfl, rfl | rfl | rfl | rfl | rfl⟩
        · exact .inl rfl
        all_goals
          simp [prereqs, chain] at hv
          try simp [Near, hv]
      · split at hu
        · obtain ⟨q, hq, rfl⟩ := List.mem_map.mp hu
          subst t
          rcases ih with rfl | ⟨-, h⟩
          · exact .inr ⟨List.mem_singleton.mp hq, .inl rfl⟩
          · simp at h
        · cases hu

theorem not_ordered_chain : ¬ Ordered chain chain.Depends ∅ (chain.plan .all) := by
  intro h
  have hreach : chain.graph.Reaches .all (.of 2 (.stamp .configured)) := by
    have hinstall : Stamp.targetInstalled ∈ installStamps (chain.pkg 2) := List.mem_singleton_self _
    have hbuild : Target.configure ∈ prereqs (chain.pkg 2) .build := List.mem_cons_self ..
    have hconfigure : .stamp .configured ∈ prereqs (chain.pkg 2) .configure := by
      simp [prereqs, chain]
    exact .head (List.mem_singleton_self _) ((reaches_install hinstall).2.trans
      ((reaches_of_prereqs hbuild).trans (reaches_of_prereqs hconfigure)))
  have hmem : (2, .stamp .configured) ∈ chain.plan .all :=
    List.mem_flatMap.mpr ⟨_, mem_visit_of_reaches hreach, List.mem_singleton_self _⟩
  obtain ⟨pre, post, hplan⟩ := List.append_of_mem hmem
  have hdep : chain.Depends 2 0 := .head (b := 1) (List.mem_singleton_self _)
    (.single (List.mem_singleton_self _))
  have hdone := h.needed pre 2 post hplan 0 hdep .targetInstalled (List.mem_singleton_self _)
  rcases mem_of_mem_foldl_exec hdone with hdone | hdone
  · exact absurd hdone (Finset.notMem_empty _)
  have hmem' : (0, .stamp .targetInstalled) ∈ chain.plan .all := by
    rw [hplan]
    exact List.mem_append_left _ hdone
  obtain ⟨n, hn, hrecipe⟩ := List.mem_flatMap.mp hmem'
  obtain rfl := eq_of_stamp_mem_recipe hrecipe
  have hnear := near_of_reaches ((reaches_of_mem_visit hn).resolve_left List.not_mem_nil)
  simp [Near] at hnear

end Dir842.Packages
