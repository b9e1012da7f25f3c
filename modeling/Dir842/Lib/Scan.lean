import Mathlib.Data.List.TakeDrop
import Mathlib.Data.List.TakeWhile

/-!
# Runs of elements

How `List.span` cuts a list at the first element that does not satisfy a predicate, and texts that
are cut at white space of ASCII.
-/

namespace Scan

variable {α : Type} {p : α → Bool}

theorem ne_of_true_of_false {a b : α} (ha : p a = true) (hb : p b = false) : a ≠ b := by
  rintro rfl
  exact Bool.false_ne_true (hb.symm.trans ha)

theorem dropWhile_eq_self {l : List α} (h : ∀ c ∈ l.head?, p c = false) : l.dropWhile p = l := by
  cases l with
  | nil => rfl
  | cons c l => exact List.dropWhile_cons_of_neg (by simp [h c rfl])

theorem trim_eq_self {l : List α} (hhead : ∀ c ∈ l.head?, p c = false)
    (hlast : ∀ c ∈ l.getLast?, p c = false) :
    ((l.dropWhile p).reverse.dropWhile p).reverse = l := by
  rw [← List.head?_reverse] at hlast
  rw [dropWhile_eq_self hhead, dropWhile_eq_self hlast, List.reverse_reverse]

theorem span_append {k t : List α} (hk : ∀ c ∈ k, p c = true) (ht : ∀ c ∈ t.head?, p c = false) :
    (k ++ t).span p = (k, t) := by
  have hstop : t.takeWhile p = [] := by
    cases t with
    | nil => rfl
    | cons c t => simp [ht c rfl]
  rw [List.span_eq_takeWhile_dropWhile, List.takeWhile_append_of_pos hk,
    List.dropWhile_append_of_pos hk, hstop, dropWhile_eq_self ht, List.append_nil]

theorem span_self {k : List α} (hk : ∀ c ∈ k, p c = true) : k.span p = (k, []) := by
  have hspan := span_append hk (t := []) (by simp)
  rwa [List.append_nil] at hspan

/-- The first element that does not satisfy the predicate. -/
theorem exists_first {l : List α} (h : ¬ ∀ c ∈ l, p c = true) :
    ∃ k c t, l = k ++ c :: t ∧ (∀ x ∈ k, p x = true) ∧ p c = false := by
  induction l with
  | nil => simp at h
  | cons a l ih =>
    cases ha : p a with
    | false => exact ⟨[], a, l, rfl, by simp, ha⟩
    | true =>
      obtain ⟨k, c, t, rfl, hk, hc⟩ := ih fun hl => h (List.forall_mem_cons.mpr ⟨ha, hl⟩)
      exact ⟨a :: k, c, t, rfl, List.forall_mem_cons.mpr ⟨ha, hk⟩, hc⟩

theorem mem_dropWhile {c : α} {l : List α} (hc : c ∈ l) (hp : p c = false) :
    c ∈ l.dropWhile p := by
  rw [← List.takeWhile_append_dropWhile (p := p) (l := l), List.mem_append] at hc
  rcases hc with hc | hc
  · simp [List.mem_takeWhile_imp hc] at hp
  · exact hc

theorem takeWhile_append_of_mem {c : α} {l : List α} (hc : c ∈ l) (hp : p c = false) (t : List α) :
    (l ++ t).takeWhile p = l.takeWhile p := by
  rw [List.takeWhile_append]
  refine if_neg fun hlength => ?_
  rw [← (List.takeWhile_sublist p).eq_of_length hlength] at hc
  simp [List.mem_takeWhile_imp hc] at hp

theorem not_mem_of_mem_splitOn [BEq α] [LawfulBEq α] {a : α} {s l : List α}
    (hl : l ∈ s.splitOn a) : a ∉ l := by
  induction s generalizing l with
  | nil =>
    obtain rfl : l = [] := by simpa using hl
    exact List.not_mem_nil
  | cons c s ih =>
    unfold List.splitOn at hl ih
    rw [List.splitOnP_cons_eq_if_modifyHead] at hl
    split at hl
    · rcases List.mem_cons.mp hl with rfl | hl
      · exact List.not_mem_nil
      · exact ih hl
    · rename_i hc
      obtain ⟨x, xs, hsplit⟩ := List.exists_cons_of_ne_nil (List.splitOnP_ne_nil (· == a) s)
      rw [hsplit] at hl ih
      rcases List.mem_cons.mp hl with rfl | hl
      · rw [List.mem_cons, not_or]
        exact ⟨fun h => hc (by simp [h]), ih (List.mem_cons_self ..)⟩
      · exact ih (List.mem_cons_of_mem _ hl)

theorem length_splitOn [BEq α] (a : α) (s : List α) :
    (s.splitOn a).length = s.count a + 1 := by
  unfold List.splitOn
  induction s with
  | nil => rfl
  | cons c s ih =>
    rw [List.splitOnP_cons_eq_if_modifyHead, List.count_cons]
    split
    · rw [List.length_cons, ih]
    · rw [List.length_modifyHead, ih, Nat.add_zero]

/-- The last occurrence. -/
theorem exists_append_cons_of_mem {a : α} {l : List α} (h : a ∈ l) :
    ∃ k t, l = k ++ a :: t ∧ a ∉ t := by
  obtain ⟨t, k, hl, ht⟩ := List.eq_append_cons_of_mem (List.mem_reverse.mpr h)
  refine ⟨k.reverse, t.reverse, ?_, mt List.mem_reverse.mp ht⟩
  rw [← List.reverse_reverse l, hl, List.reverse_append, List.reverse_cons, List.append_assoc,
    List.singleton_append]

end Scan

namespace Words

def isSpace (c : Char) : Bool :=
  c = ' ' ∨ c = '\t' ∨ c = '\n' ∨ c = '\x0b' ∨ c = '\x0c' ∨ c = '\r'

def lstrip (s : List Char) : List Char := s.dropWhile isSpace

/-- Whether there is a minus, and the text behind the sign. -/
def splitSign : List Char → Bool × List Char
  | '-' :: s => (true, s)
  | '+' :: s => (false, s)
  | s => (false, s)

/-- What is between runs of white space. -/
def words (s : List Char) : List (List Char) := (s.splitOnP isSpace).filter (· ≠ [])

end Words
