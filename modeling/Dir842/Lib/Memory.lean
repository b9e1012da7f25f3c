import Mathlib.Data.List.Basic

/-!
# Bytes in memory

`strchr` and `memmove` over the bytes that can be accessed from some address on. An access past
the last of them is a fault.
-/

namespace Dir842.Memory

/-- How `strchr` ends: at the character, at the byte 0 that ends the string, or in a fault. -/
inductive Scan
  | found (i : Nat)
  | ended (i : Nat)
  | fault
deriving DecidableEq

/-- `strchr` over the bytes from the address `i` on. -/
def strchrFrom (c : UInt8) : List UInt8 → Nat → Scan
  | [], _ => .fault
  | b :: bs, i =>
    if b = c then .found i
    else if b = 0 then .ended i
    else strchrFrom c bs (i + 1)

def strchr (c : UInt8) (mem : List UInt8) (i : Nat) : Scan := strchrFrom c (mem.drop i) i

/-- `memmove (mem + dst, mem + src, n)`; there is no result where it faults. -/
def memmove (mem : List UInt8) (dst src n : Nat) : Option (List UInt8) :=
  if src + n ≤ mem.length ∧ dst + n ≤ mem.length then
    some (mem.take dst ++ (mem.drop src).take n ++ mem.drop (dst + n))
  else none

section
variable {c : UInt8} {mem bs pre post : List UInt8} {i : Nat}

/-- Bytes that a scan passes over. -/
def Clear (c : UInt8) (bs : List UInt8) : Prop := ∀ b ∈ bs, b ≠ c ∧ b ≠ 0

theorem strchrFrom_clear (h : Clear c pre) :
    strchrFrom c (pre ++ bs) i = strchrFrom c bs (i + pre.length) := by
  induction pre generalizing i with
  | nil => rfl
  | cons b pre ih =>
    obtain ⟨⟨hc, h0⟩, hpre⟩ := List.forall_mem_cons.mp h
    rw [List.cons_append, strchrFrom, if_neg hc, if_neg h0, ih hpre, List.length_cons]
    congr 1
    omega

theorem strchr_found (h : mem.drop i = pre ++ c :: post) (hpre : Clear c pre) :
    strchr c mem i = .found (i + pre.length) := by
  rw [strchr, h, strchrFrom_clear hpre, strchrFrom, if_pos rfl]

theorem strchr_ended (hc : c ≠ 0) (h : mem.drop i = pre ++ 0 :: post) (hpre : Clear c pre) :
    strchr c mem i = .ended (i + pre.length) := by
  rw [strchr, h, strchrFrom_clear hpre, strchrFrom, if_neg hc.symm, if_pos rfl]

/-- A list is clear or has a first byte that ends the scan. -/
theorem clear_or_stops (c : UInt8) (bs : List UInt8) :
    Clear c bs ∨ ∃ pre b post, bs = pre ++ b :: post ∧ Clear c pre ∧ (b = c ∨ b = 0) := by
  induction bs with
  | nil => exact .inl nofun
  | cons b bs ih =>
    by_cases hb : b = c ∨ b = 0
    · exact .inr ⟨[], b, bs, rfl, nofun, hb⟩
    · rw [not_or] at hb
      rcases ih with hclear | ⟨pre, b', post, rfl, hpre, hstop⟩
      · exact .inl (List.forall_mem_cons.mpr ⟨hb, hclear⟩)
      · exact .inr ⟨b :: pre, b', post, rfl, List.forall_mem_cons.mpr ⟨hb, hpre⟩, hstop⟩

theorem strchr_fault (h : Clear c (mem.drop i)) : strchr c mem i = .fault := by
  rw [strchr, ← List.append_nil (mem.drop i), strchrFrom_clear h]
  rfl

theorem le_of_strchr_found {j : Nat} (h : strchr c mem i = .found j) : i ≤ j := by
  have hfrom : ∀ bs : List UInt8, ∀ i, strchrFrom c bs i = .found j → i ≤ j := by
    intro bs
    induction bs with
    | nil =>
      intro i h
      cases h
    | cons b bs ih =>
      intro i h
      unfold strchrFrom at h
      split at h
      · injection h with h
        exact Nat.le_of_eq h
      · split at h
        · cases h
        · exact Nat.le_of_succ_le (ih _ h)
  exact hfrom _ _ h

theorem memmove_eq_some {dst src n : Nat} {mem' : List UInt8} :
    memmove mem dst src n = some mem' ↔ src + n ≤ mem.length ∧ dst + n ≤ mem.length ∧
      mem' = mem.take dst ++ (mem.drop src).take n ++ mem.drop (dst + n) := by
  unfold memmove
  split
  · rename_i h
    rw [Option.some.injEq, eq_comm, and_iff_right h.1, and_iff_right h.2]
  · rename_i h
    refine iff_of_false nofun fun h' => h ⟨h'.1, h'.2.1⟩

end

end Dir842.Memory
