import Mathlib.Data.List.Basic
import Mathlib.Logic.Function.Basic

/-!
# Maps that are built line by line

Each line may write one key, with a value or with none; the last line that writes a key decides.
-/

namespace LastWins

variable {κ β : Type} [DecidableEq κ]

def write (m : κ → Option β) : Option (κ × Option β) → κ → Option β
  | none => m
  | some (k, b) => Function.update m k b

/-- What the lines write under `k`, in their order. -/
def writes (es : List (Option (κ × Option β))) (k : κ) : List (Option β) :=
  es.filterMap fun e => e.bind fun (k', b) => if k' = k then some b else none

@[simp]
theorem writes_nil (k : κ) : writes ([] : List (Option (κ × Option β))) k = [] := rfl

@[simp]
theorem writes_cons_none (es : List (Option (κ × Option β))) (k : κ) :
    writes (none :: es) k = writes es k := rfl

@[simp]
theorem writes_cons_self (es : List (Option (κ × Option β))) (k : κ) (b : Option β) :
    writes (some (k, b) :: es) k = b :: writes es k := by
  simp [writes]

theorem writes_cons_of_ne (es : List (Option (κ × Option β))) {k k' : κ} (hk : k' ≠ k)
    (b : Option β) : writes (some (k', b) :: es) k = writes es k := by
  simp [writes, hk]

theorem writes_append (es es' : List (Option (κ × Option β))) (k : κ) :
    writes (es ++ es') k = writes es k ++ writes es' k := List.filterMap_append

theorem mem_writes {es : List (Option (κ × Option β))} {k : κ} {b : Option β} :
    b ∈ writes es k ↔ some (k, b) ∈ es := by
  rw [writes, List.mem_filterMap]
  constructor
  · rintro ⟨_ | ⟨k', b'⟩, he, hb⟩
    · cases hb
    · simp only [Option.bind_some] at hb
      split at hb
      · rename_i hk
        cases hb
        exact hk ▸ he
      · cases hb
  · exact fun h => ⟨_, h, if_pos rfl⟩

theorem writes_eq_nil {es : List (Option (κ × Option β))} {k : κ}
    (h : ∀ e ∈ es, ∀ w ∈ e, w.1 ≠ k) : writes es k = [] := by
  induction es with
  | nil => rfl
  | cons e es ih =>
    obtain ⟨he, hes⟩ := List.forall_mem_cons.mp h
    rcases e with _ | ⟨k', b⟩
    · exact ih hes
    · rw [writes_cons_of_ne es (he _ rfl), ih hes]

/-- The map after all lines: the last write, or else what stood before. -/
theorem foldl_write (es : List (Option (κ × Option β))) (m : κ → Option β) (k : κ) :
    es.foldl write m k = (writes es k).getLast?.getD (m k) := by
  induction es generalizing m with
  | nil => rfl
  | cons e es ih =>
    rw [List.foldl_cons, ih]
    rcases e with _ | ⟨k', b⟩
    · rfl
    · by_cases hk : k' = k
      · subst hk
        rw [writes_cons_self, List.getLast?_cons, write, Function.update_self]
        rfl
      · rw [writes_cons_of_ne es hk, write, Function.update_of_ne (Ne.symm hk)]

theorem foldl_write_append (es es' : List (Option (κ × Option β))) (m : κ → Option β) (k : κ) :
    (es ++ es').foldl write m k = (writes es' k).getLast?.getD (es.foldl write m k) := by
  rw [List.foldl_append, foldl_write]

/-- What the map has was written by a line. -/
theorem mem_of_foldl_write {es : List (Option (κ × Option β))} {k : κ} {b : β}
    (h : es.foldl write (fun _ => none) k = some b) : some (k, some b) ∈ es := by
  rw [foldl_write, Option.getD_eq_iff] at h
  obtain h | ⟨-, h⟩ := h
  · exact mem_writes.mp (List.mem_of_getLast? h)
  · cases h

/-! ### Entries with keys of their own -/

variable {ι : Type} {key : ι → κ} {f : ι → Option (κ × Option β)}

theorem writes_map_of_not_mem (hf : ∀ u, ∀ e ∈ f u, e.1 = key u) {us : List ι} {k : κ}
    (hk : ∀ u ∈ us, key u ≠ k) : writes (us.map f) k = [] := by
  induction us with
  | nil => rfl
  | cons u us ih =>
    obtain ⟨hu, hus⟩ := List.forall_mem_cons.mp hk
    rw [List.map_cons]
    rcases hfu : f u with _ | ⟨k', b⟩
    · exact ih hus
    · obtain rfl : k' = key u := hf u _ hfu
      rw [writes_cons_of_ne _ hu, ih hus]

/-- What does not write a key may be left out for it. -/
theorem writes_map_filter {p : ι → Bool} {us : List ι} {k : κ}
    (h : ∀ u ∈ us, p u = false → ∀ w ∈ f u, w.1 ≠ k) :
    writes ((us.filter p).map f) k = writes (us.map f) k := by
  induction us with
  | nil => rfl
  | cons u us ih =>
    obtain ⟨hu, hus⟩ := List.forall_mem_cons.mp h
    cases hp : p u with
    | true =>
      rw [List.filter_cons_of_pos hp, List.map_cons, List.map_cons]
      rcases f u with _ | ⟨k', b⟩
      · exact ih hus
      · by_cases hk : k' = k
        · subst hk
          rw [writes_cons_self, writes_cons_self, ih hus]
        · rw [writes_cons_of_ne _ hk, writes_cons_of_ne _ hk, ih hus]
    | false =>
      rw [List.filter_cons_of_neg (by rw [hp]; exact nofun), List.map_cons, ih hus]
      rcases hfu : f u with _ | ⟨k', b⟩
      · rfl
      · rw [writes_cons_of_ne _ (hu hp _ hfu)]

theorem writes_map_of_mem (hf : ∀ u, ∀ e ∈ f u, e.1 = key u) {us : List ι}
    (hnodup : (us.map key).Nodup) {u : ι} (hu : u ∈ us) :
    writes (us.map f) (key u) = (f u).toList.map (·.2) := by
  induction us with
  | nil => simp at hu
  | cons v us ih =>
    rw [List.map_cons, List.nodup_cons] at hnodup
    rw [List.map_cons]
    rcases List.mem_cons.mp hu with rfl | hu
    · have hrest : writes (us.map f) (key u) = [] := writes_map_of_not_mem hf fun v hv h =>
        hnodup.1 (h ▸ List.mem_map_of_mem hv)
      rcases hfu : f u with _ | ⟨k', b⟩
      · exact hrest
      · obtain rfl : k' = key u := hf u _ hfu
        rw [writes_cons_self, hrest]
        rfl
    · have hne : key v ≠ key u := fun h => hnodup.1 (h ▸ List.mem_map_of_mem hu)
      rcases hfv : f v with _ | ⟨k', b⟩
      · exact ih hnodup.2 hu
      · obtain rfl : k' = key v := hf v _ hfv
        rw [writes_cons_of_ne _ hne, ih hnodup.2 hu]

end LastWins
