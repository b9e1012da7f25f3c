import Mathlib.Data.List.Infix

/-!
# Words and substrings

What `grep -w` finds in a line, and what `s/pat/repl/g` makes of it, for a fixed string `pat`.
-/

namespace Dir842.Match
variable {α : Type*} [DecidableEq α]

section
variable (word : α → Bool) (pat : List α)

/-- `pat` with no word character before and after it. `start`: a word may begin here. -/
def hasWordFrom (start : Bool) : List α → Bool
  | [] => start && pat.isEmpty
  | c :: s =>
    start && pat.isPrefixOf (c :: s) && ((c :: s).drop pat.length).head?.all (! word ·) ||
      hasWordFrom (! word c) s

def hasWord (s : List α) : Bool := hasWordFrom word pat true s

/-- From the left, no two of the replaced parts overlap; `skip` characters are part of the last. -/
def replaceFrom (repl : List α) : ℕ → List α → List α
  | _, [] => []
  | skip + 1, _ :: s => replaceFrom repl skip s
  | 0, c :: s =>
    if pat.isPrefixOf (c :: s) then repl ++ replaceFrom repl (pat.length - 1) s
    else c :: replaceFrom repl 0 s

def replaceAll (repl : List α) (s : List α) : List α := replaceFrom pat repl 0 s

end

variable {word : α → Bool} {pat repl s : List α}

theorem hasWordFrom_of_start {start : Bool} {a b : List α} (hpat : pat ≠ [])
    (hstart : a = [] → start = true) (ha : ∀ c ∈ a.getLast?, word c = false)
    (hb : ∀ c ∈ b.head?, word c = false) : hasWordFrom word pat start (a ++ pat ++ b) = true := by
  induction a generalizing start with
  | nil =>
    obtain ⟨c, t, rfl⟩ := List.exists_cons_of_ne_nil hpat
    rw [hstart rfl, List.nil_append]
    have hbegin : (c :: t).isPrefixOf (c :: t ++ b) = true :=
      List.isPrefixOf_iff_prefix.mpr (List.prefix_append ..)
    have hend : (b.head?.all (! word ·)) = true := by
      cases b with
      | nil => rfl
      | cons d b => simp [hb d rfl]
    rw [List.cons_append] at hbegin ⊢
    rw [hasWordFrom, hbegin, ← List.cons_append, List.drop_left, hend]
    rfl
  | cons d a ih =>
    rw [List.cons_append, List.cons_append, hasWordFrom, Bool.or_eq_true]
    refine .inr (ih (fun ha' => ?_) fun c hc => ha c ?_)
    · rw [ha', List.getLast?_singleton] at ha
      rw [ha d rfl]
      rfl
    · exact List.mem_getLast?_cons hc

theorem hasWord_append {a b : List α} (hpat : pat ≠ []) (ha : ∀ c ∈ a.getLast?, word c = false)
    (hb : ∀ c ∈ b.head?, word c = false) : hasWord word pat (a ++ pat ++ b) = true :=
  hasWordFrom_of_start hpat (fun _ => rfl) ha hb

theorem replaceAll_eq_self (h : ¬ pat <:+: s) : replaceAll pat repl s = s := by
  unfold replaceAll
  induction s with
  | nil => rfl
  | cons c s ih =>
    rw [List.infix_cons_iff, not_or] at h
    rw [replaceFrom, if_neg (by rw [List.isPrefixOf_iff_prefix]; exact h.1), ih h.2]

theorem replaceFrom_length (s : List α) : replaceFrom pat repl s.length s = [] := by
  induction s with
  | nil => rfl
  | cons c s ih => exact ih

theorem replaceAll_self (hpat : pat ≠ []) : replaceAll pat repl pat = repl := by
  obtain ⟨c, t, rfl⟩ := List.exists_cons_of_ne_nil hpat
  rw [replaceAll, replaceFrom, if_pos (List.isPrefixOf_iff_prefix.mpr List.prefix_rfl),
    List.length_cons, Nat.add_sub_cancel, replaceFrom_length, List.append_nil]

end Dir842.Match
