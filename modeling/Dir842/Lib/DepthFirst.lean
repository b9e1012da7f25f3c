import Dir842.Lib.Run
import Mathlib.Data.List.Induction
import Mathlib.Data.List.Nodup
import Mathlib.Logic.Relation
import Mathlib.Order.WellFounded

/-!
# Depth-first traversal

A traversal of what is reachable along `next`, each element once and after its successors, as
`make` goes over its targets. `next` is well-founded: no path goes on for ever.
-/

namespace Dir842.DepthFirst
variable {α : Type*}

/-- A finite list of successors of each element, without an infinite path. -/
structure Graph (α : Type*) where
  next : α → List α
  wf : WellFounded fun u t => u ∈ next t

/-- A path from `t`. -/
def Graph.Reaches (g : Graph α) : α → α → Prop := Relation.ReflTransGen fun t u => u ∈ g.next t

variable {g : Graph α} {done : List α} {t : α}

/-- No element is reached from its successors. -/
theorem not_reaches_next {u : α} (hu : u ∈ g.next t) : ¬ g.Reaches u t := by
  intro h
  have hcycle : Relation.TransGen (fun u t => u ∈ g.next t) t t :=
    Relation.transGen_swap.mp (.head' hu h)
  exact g.wf.transGen.irrefl.irrefl t hcycle

/-- How `t` comes up: first of all, or as a successor after those before it. -/
def Due (g : Graph α) (root : α) (done : List α) (t : α) : Prop :=
  t = root ∨ ∃ c us vs, g.next c = us ++ t :: vs ∧ ∀ u ∈ us, u ∈ done

theorem Due.mono {root : α} {done' : List α} (h : Due g root done t) (hd : done <+: done') :
    Due g root done' t := by
  rcases h with rfl | ⟨c, us, vs, hc, hus⟩
  · exact .inl rfl
  · exact .inr ⟨c, us, vs, hc, fun u hu => hd.subset (hus u hu)⟩

/-- A property of an element and those before it, for all the elements of a list. -/
def Throughout (Q : List α → α → Prop) (ts : List α) : Prop :=
  ∀ pre t post, ts = pre ++ t :: post → Q pre t

theorem throughout_nil (Q : List α → α → Prop) : Throughout Q [] := by
  intro pre t post h
  exact absurd h (by simp)

theorem Throughout.snoc {Q : List α → α → Prop} {ts : List α} (h : Throughout Q ts)
    (ht : Q ts t) : Throughout Q (ts ++ [t]) := by
  intro pre u post hu
  rcases Run.eq_or_exists_of_concat hu with ⟨rfl, rfl⟩ | ⟨post, hts⟩
  · exact ht
  · exact h pre u post hts

theorem Throughout.pairwise {R : α → α → Prop} {ts : List α}
    (h : Throughout (fun pre t => ∀ u ∈ pre, R u t) ts) : ts.Pairwise R := by
  induction ts using List.reverseRecOn with
  | nil => exact .nil
  | append_singleton ts t ih =>
    rw [List.pairwise_append]
    refine ⟨ih fun pre u post hu => h pre u (post ++ [t]) ?_, List.pairwise_singleton R t, ?_⟩
    · rw [hu, List.append_assoc, List.cons_append]
    · intro u hu v hv
      rw [List.mem_singleton] at hv
      exact hv ▸ h ts t [] rfl u hu

/-! ### The traversal -/

section
variable [DecidableEq α] (g)

/-- The elements finished once `t` is, of which `done` are finished before. -/
def visit (done : List α) (t : α) : List α :=
  if t ∈ done then done
  else (g.next t).attach.foldl (fun done u => visit done u.1) done ++ [t]
termination_by g.wf.wrap t
decreasing_by exact u.2

variable {g}

theorem visit_eq (done : List α) (t : α) : visit g done t =
    if t ∈ done then done else (g.next t).foldl (visit g) done ++ [t] := by
  rw [visit, List.foldl_subtype (g := visit g) fun _ _ _ => rfl, List.unattach_attach]

/-- What every element that is reached keeps holds after a traversal. -/
theorem visit_reached {P : List α → Prop} {root : α}
    (h : ∀ done t, P done → g.Reaches root t → P (done ++ [t])) (h0 : P done) :
    P (visit g done root) := by
  have hvisit : ∀ t, g.Reaches root t → ∀ done, P done → P (visit g done t) := by
    intro t
    induction t using g.wf.induction with
    | _ t ih =>
      intro ht done hP
      rw [visit_eq]
      split
      · exact hP
      · refine h _ t ?_ ht
        have hnext : ∀ u ∈ g.next t, ∀ done, P done → P (visit g done u) := fun u hu =>
          ih u hu (ht.tail hu)
        exact List.foldlRecOn (g.next t) _ hP fun done hP u hu => hnext u hu done hP
  exact hvisit root .refl done h0

/-- A traversal adds what it reaches. -/
theorem exists_visit_eq (done : List α) (t : α) :
    ∃ ts, visit g done t = done ++ ts ∧ ∀ u ∈ ts, g.Reaches t u := by
  refine visit_reached (P := fun d => ∃ ts, d = done ++ ts ∧ ∀ u ∈ ts, g.Reaches t u) ?_
    ⟨[], (List.append_nil done).symm, nofun⟩
  rintro _ u ⟨ts, rfl, hts⟩ hu
  refine ⟨ts ++ [u], List.append_assoc .., fun v hv => ?_⟩
  rcases List.mem_append.mp hv with hv | hv
  · exact hts v hv
  · rw [List.mem_singleton] at hv
    exact hv ▸ hu

theorem prefix_visit (done : List α) (t : α) : done <+: visit g done t := by
  obtain ⟨ts, hts, -⟩ := exists_visit_eq (g := g) done t
  exact ⟨ts, hts.symm⟩

theorem reaches_of_mem_visit {u : α} (h : u ∈ visit g done t) : u ∈ done ∨ g.Reaches t u := by
  obtain ⟨ts, hts, hreach⟩ := exists_visit_eq (g := g) done t
  rw [hts, List.mem_append] at h
  exact h.imp_right (hreach u)

theorem mem_visit_self (done : List α) (t : α) : t ∈ visit g done t := by
  rw [visit_eq]
  split
  · assumption
  · exact List.mem_append_right _ (List.mem_singleton_self t)

/-- What every element keeps that is finished after its successors and in its turn holds after a
traversal. -/
theorem visit_rec {P : List α → Prop} {root : α}
    (h : ∀ done t, P done → t ∉ done → (∀ u ∈ g.next t, u ∈ done) → g.Reaches root t →
      Due g root done t → P (done ++ [t])) (h0 : P done) : P (visit g done root) := by
  have hvisit : ∀ t, g.Reaches root t → ∀ done, Due g root done t → P done →
      P (visit g done t) := by
    intro t
    induction t using g.wf.induction with
    | _ t ih =>
      intro ht done hdue hP
      -- the successors `us` are finished, `vs` are still to come
      have hfold : ∀ vs us d, g.next t = us ++ vs → (∀ u ∈ us, u ∈ d) → P d → done <+: d →
          (∀ u ∈ d, u ∈ done ∨ ∃ v ∈ g.next t, g.Reaches v u) →
          P (vs.foldl (visit g) d) ∧ (∀ u ∈ g.next t, u ∈ vs.foldl (visit g) d) ∧
            done <+: vs.foldl (visit g) d ∧
            ∀ u ∈ vs.foldl (visit g) d, u ∈ done ∨ ∃ v ∈ g.next t, g.Reaches v u := by
        intro vs
        induction vs with
        | nil =>
          intro us d hnext hus hP hd hnew
          rw [List.append_nil] at hnext
          exact ⟨hP, hnext ▸ hus, hd, hnew⟩
        | cons v vs ihv =>
          intro us d hnext hus hP hd hnew
          have hv : v ∈ g.next t := by
            rw [hnext]
            exact List.mem_append_right _ (List.mem_cons_self ..)
          have hpre := prefix_visit (g := g) d v
          refine ihv (us ++ [v]) _ (by rw [hnext, List.append_assoc, List.singleton_append]) ?_
            (ih v hv (ht.tail hv) d (.inr ⟨t, us, vs, hnext, hus⟩) hP) (hd.trans hpre) ?_
          · intro u hu
            rcases List.mem_append.mp hu with hu | hu
            · exact hpre.subset (hus u hu)
            · rw [List.mem_singleton] at hu
              rw [hu]
              exact mem_visit_self d v
          · intro u hu
            rcases reaches_of_mem_visit hu with hu | hu
            · exact hnew u hu
            · exact .inr ⟨v, hv, hu⟩
      rw [visit_eq]
      split
      · exact hP
      · rename_i hmem
        obtain ⟨hP', hall, hpre, hnew⟩ :=
          hfold (g.next t) [] done rfl nofun hP List.prefix_rfl fun _ => .inl
        refine h _ t hP' (fun ht' => ?_) hall ht (hdue.mono hpre)
        rcases hnew t ht' with ht' | ⟨v, hv, hr⟩
        · exact hmem ht'
        · exact not_reaches_next hv hr
  exact hvisit root .refl done (.inl rfl) h0

theorem nodup_visit (t : α) (h : done.Nodup) : (visit g done t).Nodup := by
  refine visit_rec (fun d u hd hu _ _ _ => ?_) h
  rw [List.nodup_append]
  refine ⟨hd, List.nodup_singleton u, fun a ha b hb he => hu ?_⟩
  rw [List.mem_singleton] at hb
  rw [← hb, ← he]
  exact ha

/-- All the elements come after their successors. -/
theorem throughout_next (root : α) :
    Throughout (fun pre t => ∀ u ∈ g.next t, u ∈ pre) (visit g [] root) :=
  visit_rec (fun _ _ h _ hnext _ _ => h.snoc hnext) (throughout_nil _)

theorem mem_visit_of_reaches {u : α} (h : g.Reaches t u) : u ∈ visit g [] t := by
  induction h with
  | refl => exact mem_visit_self [] t
  | tail _ hw ih =>
    obtain ⟨pre, post, hsplit⟩ := List.append_of_mem ih
    rw [hsplit]
    exact List.mem_append_left _ (throughout_next t pre _ post hsplit _ hw)

/-- All the elements come in their turn. -/
theorem throughout_due (root : α) : Throughout (fun pre t => Due g root pre t) (visit g [] root) :=
  visit_rec (fun _ _ h _ _ _ hdue => h.snoc hdue) (throughout_nil _)

end

end Dir842.DepthFirst
