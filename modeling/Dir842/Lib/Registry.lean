import Mathlib.Algebra.Order.Ring.Nat
import Mathlib.Data.List.Induction
import Mathlib.Data.List.Nodup

/-!
# Objects found by name

A list of objects, each found by its key and made at its first use. The rows of a table, taken one
after the other, each change the object that they name: what comes of them is, for each key, what
the rows of that key make of a new object.
-/

namespace Registry

variable {α κ ρ : Type} [DecidableEq κ] (key : α → κ) (new : κ → α)

/-- Changes the first object with the key, which is made at the end if there is none. -/
def update (k : κ) (f : α → α) : List α → List α
  | [] => [f (new k)]
  | p :: ps => if key p = k then f p :: ps else p :: update k f ps

/-- The object with the key. -/
def lookup (k : κ) (ps : List α) : Option α := ps.find? (key · = k)

/-- The objects after the rows. -/
def collect (of : ρ → κ) (act : ρ → α → α) (rows : List ρ) : List α :=
  rows.foldl (fun ps r => update key new (of r) (act r) ps) []

variable {key new}

section update
variable {k : κ} {f : α → α} (hnew : ∀ k, key (new k) = k) (hf : ∀ p, key (f p) = key p)
include hnew hf

theorem mem_keys_update {ps : List α} {k' : κ} :
    k' ∈ (update key new k f ps).map key ↔ k' ∈ ps.map key ∨ k' = k := by
  induction ps with
  | nil => simp [update, hf, hnew]
  | cons p ps ih =>
    rw [update]
    split
    · rename_i hp
      rw [List.map_cons, hf, List.map_cons, List.mem_cons, hp]
      tauto
    · rw [List.map_cons, List.mem_cons, ih, List.map_cons, List.mem_cons, or_assoc]

theorem nodup_keys_update {ps : List α} (h : (ps.map key).Nodup) :
    ((update key new k f ps).map key).Nodup := by
  induction ps with
  | nil => exact List.nodup_singleton _
  | cons p ps ih =>
    rw [List.map_cons, List.nodup_cons] at h
    rw [update]
    split
    · rw [List.map_cons, hf]
      exact List.nodup_cons.mpr h
    · rename_i hp
      rw [List.map_cons, List.nodup_cons, mem_keys_update hnew hf]
      exact ⟨not_or.mpr ⟨h.1, hp⟩, ih h.2⟩

end update

/-- What the new objects have and the change keeps, all objects have. -/
theorem forall_update {Q : α → Prop} {k : κ} {f : α → α} {ps : List α} (h : ∀ p ∈ ps, Q p)
    (hf : ∀ p, Q p → Q (f p)) (hnew : Q (f (new k))) : ∀ p ∈ update key new k f ps, Q p := by
  induction ps with
  | nil => exact List.forall_mem_singleton.mpr hnew
  | cons p ps ih =>
    obtain ⟨hp, hps⟩ := List.forall_mem_cons.mp h
    rw [update]
    split
    · exact List.forall_mem_cons.mpr ⟨hf p hp, hps⟩
    · exact List.forall_mem_cons.mpr ⟨hp, ih hps⟩

theorem update_of_not_mem {k : κ} {f : α → α} {ps : List α} (hk : k ∉ ps.map key) :
    update key new k f ps = ps ++ [f (new k)] := by
  induction ps with
  | nil => rfl
  | cons p ps ih =>
    obtain ⟨hp, hps⟩ := not_or.mp (mt List.mem_cons.mpr hk)
    rw [update, if_neg (Ne.symm hp), ih hps, List.cons_append]

/-- An object after the change was there before, or is the one that was changed. -/
theorem mem_update {k : κ} {f : α → α} {ps : List α} (h : (ps.map key).Nodup) {p : α}
    (hp : p ∈ update key new k f ps) :
    (p ∈ ps ∧ key p ≠ k) ∨ (∃ q ∈ ps, key q = k ∧ p = f q) ∨
      (k ∉ ps.map key ∧ p = f (new k)) := by
  induction ps with
  | nil => exact .inr (.inr ⟨List.not_mem_nil, List.mem_singleton.mp hp⟩)
  | cons q ps ih =>
    rw [List.map_cons, List.nodup_cons] at h
    rw [update] at hp
    split at hp
    · rename_i hq
      rcases List.mem_cons.mp hp with rfl | hp
      · exact .inr (.inl ⟨q, List.mem_cons_self, hq, rfl⟩)
      · refine .inl ⟨List.mem_cons_of_mem _ hp, fun hk => h.1 ?_⟩
        rw [hq, ← hk]
        exact List.mem_map_of_mem hp
    · rename_i hq
      rcases List.mem_cons.mp hp with rfl | hp
      · exact .inl ⟨List.mem_cons_self, hq⟩
      · rcases ih h.2 hp with ⟨hp, hk⟩ | ⟨q', hq', hk, hpq⟩ | ⟨hk, hpq⟩
        · exact .inl ⟨List.mem_cons_of_mem _ hp, hk⟩
        · exact .inr (.inl ⟨q', List.mem_cons_of_mem _ hq', hk, hpq⟩)
        · refine .inr (.inr ⟨fun hmem => ?_, hpq⟩)
          exact (List.mem_cons.mp hmem).elim (fun heq => hq heq.symm) hk

theorem lookup_eq_some_iff {ps : List α} (h : (ps.map key).Nodup) {k : κ} {p : α} :
    lookup key k ps = some p ↔ p ∈ ps ∧ key p = k := by
  constructor
  · intro hp
    exact ⟨List.mem_of_find?_eq_some hp, by simpa using List.find?_some hp⟩
  · rintro ⟨hp, rfl⟩
    rcases hq : lookup key (key p) ps with _ | q
    · exact absurd (by simp) (List.find?_eq_none.mp hq p hp)
    · have hkey : key q = key p := by simpa using List.find?_some hq
      rw [List.inj_on_of_nodup_map h (List.mem_of_find?_eq_some hq) hp hkey]

section collect
variable {of : ρ → κ} {act : ρ → α → α}

theorem collect_concat (rows : List ρ) (r : ρ) : collect key new of act (rows ++ [r]) =
    update key new (of r) (act r) (collect key new of act rows) := List.foldl_concat ..

variable (hnew : ∀ k, key (new k) = k) (hact : ∀ r p, key (act r p) = key p)
include hnew hact

theorem mem_keys_collect {rows : List ρ} {k : κ} :
    k ∈ (collect key new of act rows).map key ↔ ∃ r ∈ rows, of r = k := by
  induction rows using List.reverseRecOn with
  | nil => simp [collect]
  | append_singleton rows r ih =>
    rw [collect_concat, mem_keys_update hnew (hact r), ih]
    simp [or_and_right, exists_or, eq_comm]

theorem nodup_keys_collect (rows : List ρ) : ((collect key new of act rows).map key).Nodup := by
  induction rows using List.reverseRecOn with
  | nil => exact List.nodup_nil
  | append_singleton rows r ih =>
    rw [collect_concat]
    exact nodup_keys_update hnew (hact r) ih

/-- Each object is what its own rows make of a new one. -/
theorem eq_of_mem_collect {rows : List ρ} {p : α} (hp : p ∈ collect key new of act rows) :
    p = (rows.filter (of · = key p)).foldl (fun p r => act r p) (new (key p)) := by
  induction rows using List.reverseRecOn generalizing p with
  | nil => cases hp
  | append_singleton rows r ih =>
    rw [collect_concat] at hp
    rw [List.filter_append]
    have hnodup : ((collect key new of act rows).map key).Nodup :=
      nodup_keys_collect hnew hact rows
    rcases mem_update hnodup hp with ⟨hp, hk⟩ | ⟨q, hq, hk, rfl⟩ | ⟨hk, rfl⟩
    · rw [List.filter_cons_of_neg (by simpa using hk.symm), List.filter_nil, List.append_nil]
      exact ih hp
    · rw [hact, List.filter_cons_of_pos (by simpa using hk.symm), List.filter_nil,
        List.foldl_concat, ← ih hq]
    · rw [hact, hnew, List.filter_cons_of_pos (by simp), List.filter_nil, List.foldl_concat]
      have hnone : rows.filter (of · = of r) = [] := by
        refine List.filter_eq_nil_iff.mpr fun r' hr' heq => hk ?_
        exact (mem_keys_collect hnew hact).mpr ⟨r', hr', by simpa using heq⟩
      rw [hnone, List.foldl_nil]

/-- Rows with keys of their own. -/
theorem collect_of_nodup {rows : List ρ} (h : (rows.map of).Nodup) :
    collect key new of act rows = rows.map fun r => act r (new (of r)) := by
  induction rows using List.reverseRecOn with
  | nil => rfl
  | append_singleton rows r ih =>
    rw [List.map_append, List.nodup_append] at h
    rw [collect_concat, ih h.1, update_of_not_mem, List.map_append]
    · rfl
    · rw [List.map_map]
      intro hmem
      obtain ⟨r', hr', hkey⟩ := List.mem_map.mp hmem
      rw [Function.comp_apply, hact, hnew] at hkey
      exact h.2.2 (of r') (List.mem_map_of_mem hr') (of r) (List.mem_map_of_mem (by simp)) hkey

theorem lookup_collect_eq_none {rows : List ρ} {k : κ} :
    lookup key k (collect key new of act rows) = none ↔ ∀ r ∈ rows, of r ≠ k := by
  have hkeys : k ∈ (collect key new of act rows).map key ↔ ∃ r ∈ rows, of r = k :=
    mem_keys_collect hnew hact
  rw [lookup, List.find?_eq_none]
  constructor
  · intro h r hr hk
    obtain ⟨p, hp, hpk⟩ := List.mem_map.mp (hkeys.mpr ⟨r, hr, hk⟩)
    exact h p hp (by simpa using hpk)
  · intro h p hp hpk
    obtain ⟨r, hr, hk⟩ := hkeys.mp (List.mem_map.mpr ⟨p, hp, by simpa using hpk⟩)
    exact h r hr hk

theorem lookup_collect_of_mem {rows : List ρ} {r : ρ} (hr : r ∈ rows) :
    lookup key (of r) (collect key new of act rows) =
      some ((rows.filter (of · = of r)).foldl (fun p r => act r p) (new (of r))) := by
  rcases h : lookup key (of r) (collect key new of act rows) with _ | p
  · exact absurd rfl ((lookup_collect_eq_none hnew hact).mp h r hr)
  · have hp := List.mem_of_find?_eq_some h
    have hk : key p = of r := by simpa using List.find?_some h
    have hcollect := eq_of_mem_collect hnew hact hp
    rw [hk] at hcollect
    rw [hcollect]

end collect

/-! ### Sums over the objects -/

section sum
variable {w : α → ℕ} (hzero : ∀ k, w (new k) = 0)
include hzero

theorem sum_update {k : κ} {f : α → α} {v : ℕ} (hf : ∀ p, w (f p) = w p + v) (ps : List α) :
    ((update key new k f ps).map w).sum = (ps.map w).sum + v := by
  induction ps with
  | nil => simp [update, hf, hzero]
  | cons p ps ih =>
    rw [update]
    split
    · rw [List.map_cons, List.map_cons, List.sum_cons, List.sum_cons, hf, Nat.add_right_comm]
    · rw [List.map_cons, List.map_cons, List.sum_cons, List.sum_cons, ih, Nat.add_assoc]

/-- What the rows add is spread over the objects, and nothing is lost. -/
theorem sum_collect {of : ρ → κ} {act : ρ → α → α} {v : ρ → ℕ}
    (hact : ∀ r p, w (act r p) = w p + v r) (rows : List ρ) :
    ((collect key new of act rows).map w).sum = (rows.map v).sum := by
  induction rows using List.reverseRecOn with
  | nil => rfl
  | append_singleton rows r ih =>
    rw [collect_concat, sum_update hzero (hact r), ih, List.map_append, List.sum_append]
    rfl

end sum

end Registry
