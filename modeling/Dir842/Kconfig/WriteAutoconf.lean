import Mathlib.Tactic.TypeStar

/-!
# The commit of `conf_write_autoconf` (`confdata.c`)

Five files are written under temporary names and renamed. What the printers put into them is the
parameter `text`; what stdio has not yet handed to the system is not in a file that is still open.
-/

namespace Dir842.WriteAutoconf

/-- The five streams; `conf` becomes `auto.conf`. -/
inductive Out
  | conf | tristate | header | cmake | json
deriving DecidableEq

/-- Which of the calls succeed. -/
structure Calls where
  splitConfig : Bool
  fopen : Out → Bool
  rename : Out → Bool

def Calls.Fail (calls : Calls) : Prop :=
  calls.splitConfig = false ∨ (∃ o, calls.fopen o = false) ∨ ∃ o, calls.rename o = false

structure State where
  opened : List Out := []
  /-- What was printed to each stream since it was opened. -/
  printed : Out → List Char := fun _ => []
  /-- The files whose final name was replaced, oldest first. -/
  replaced : List Out := []

/-- What stdio has written of `s` to a file that is open, with a buffer of `bufsiz`: full buffers,
and the last one only when something follows it. -/
def flushed (bufsiz : Nat) (s : List Char) : List Char :=
  s.take (bufsiz * ((s.length - 1) / bufsiz))

/-- The file of a stream, under its temporary or its final name. -/
def State.onDisk (st : State) (bufsiz : Nat) (o : Out) : List Char :=
  if o ∈ st.opened then flushed bufsiz (st.printed o) else st.printed o

/-- `fclose` of a stream that is not open. -/
inductive Undefined
  | fclose

abbrev M := EStateM Undefined State

section steps
variable (calls : Calls)

def fopen (o : Out) : M Bool := do
  if calls.fopen o then
    modify fun st => { st with opened := o :: st.opened }
    return true
  return false

def fclose (o : Out) : M Unit := do
  if o ∈ (← get).opened then
    modify fun st => { st with opened := st.opened.erase o }
  else throw .fclose

def fprintf (o : Out) (s : List Char) : M Unit :=
  modify fun st =>
    { st with printed := fun o' => if o' = o then st.printed o ++ s else st.printed o' }

def rename (o : Out) : M Bool := do
  if calls.rename o then
    modify fun st => { st with replaced := st.replaced ++ [o] }
    return true
  return false

def confWriteAutoconf (text : Out → List Char) : M Nat := do
  if !calls.splitConfig then
    return 1
  if !(← fopen calls .conf) then
    return 1
  if !(← fopen calls .tristate) then
    fclose .conf
    return 1
  if !(← fopen calls .header) then
    fclose .conf
    fclose .tristate
    return 1
  if !(← fopen calls .cmake) then
    fclose .conf
    fclose .tristate
    fclose .cmake
    return 1
  if !(← fopen calls .json) then
    fclose .conf
    fclose .tristate
    fclose .cmake
    return 1
  fprintf .conf (text .conf)
  fprintf .tristate (text .tristate)
  fprintf .header (text .header)
  fprintf .cmake (text .cmake)
  fprintf .json ("\x7b\n".toList ++ text .json ++ "\n\x7d\n".toList)
  fclose .conf
  fclose .tristate
  fclose .header
  fclose .cmake
  if !(← rename calls .header) then
    return 1
  if !(← rename calls .tristate) then
    return 1
  if !(← rename calls .conf) then
    return 1
  if !(← rename calls .cmake) then
    return 1
  if !(← rename calls .json) then
    return 1
  return 0

end steps

/-- What a file holds when all that is printed to it has arrived. -/
def complete (text : Out → List Char) : Out → List Char
  | .json => "\x7b\n".toList ++ text .json ++ "\n\x7d\n".toList
  | o => text o

/-- Once `auto.conf` is replaced every other file is, by its complete contents; a failure is
returned as an error, with every file closed; and no file is closed that is not open. -/
def Commits (bufsiz : Nat) (calls : Calls) (text : Out → List Char) :
    EStateM.Result Undefined State Nat → Prop
  | .ok code st =>
    (.conf ∈ st.replaced → ∀ o, o ∈ st.replaced ∧ st.onDisk bufsiz o = complete text o) ∧
      (calls.Fail → code ≠ 0) ∧ (code ≠ 0 → st.opened = [])
  | .error _ _ => False

/-- Something of what was printed is missing until the stream is closed. -/
theorem flushed_ne {bufsiz : Nat} {s : List Char} (h : s ≠ []) : flushed bufsiz s ≠ s := by
  intro heq
  have hlen := congrArg List.length heq
  have hpos := List.length_pos_iff.mpr h
  have hmul : bufsiz * ((s.length - 1) / bufsiz) ≤ s.length - 1 := Nat.mul_div_le ..
  rw [flushed, List.length_take] at hlen
  omega

section runs
variable (calls : Calls) (st : State) (o : Out)

@[simp] theorem run_fopen : (fopen calls o).run st =
    .ok (calls.fopen o) (if calls.fopen o then { st with opened := o :: st.opened } else st) := by
  unfold fopen
  cases calls.fopen o <;> rfl

@[simp] theorem run_rename : (rename calls o).run st =
    .ok (calls.rename o) (if calls.rename o then { st with replaced := st.replaced ++ [o] } else st) := by
  unfold rename
  cases calls.rename o <;> rfl

@[simp] theorem run_fprintf (s : List Char) : (fprintf o s).run st =
    .ok () { st with printed := fun o' => if o' = o then st.printed o ++ s else st.printed o' } := rfl

@[simp] theorem run_fclose : (fclose o).run st =
    if o ∈ st.opened then .ok () { st with opened := st.opened.erase o } else .error .fclose st := by
  simp only [fclose, EStateM.run_bind, EStateM.run_get]
  split <;> rfl

end runs

/-- The commit law holds exactly where the function gives up before it opens the fourth file. -/
theorem commits_iff (bufsiz : Nat) (calls : Calls) (text : Out → List Char) :
    Commits bufsiz calls text ((confWriteAutoconf calls text).run {}) ↔
      calls.splitConfig = false ∨ calls.fopen .conf = false ∨ calls.fopen .tristate = false ∨
        calls.fopen .header = false := by
  cases hsplit : calls.splitConfig
  · simp [confWriteAutoconf, Commits, *]
  cases hconf : calls.fopen .conf
  · simp [confWriteAutoconf, Commits, *]
  cases htristate : calls.fopen .tristate
  · simp [confWriteAutoconf, Commits, -bind_pure_comp, *]
  cases hheader : calls.fopen .header
  · simp [confWriteAutoconf, Commits, -bind_pure_comp, *]
  refine iff_of_false ?_ (by simp)
  cases hcmake : calls.fopen .cmake
  · -- `fclose` of the stream that did not open
    simp [confWriteAutoconf, Commits, -bind_pure_comp, *]
  cases hjson : calls.fopen .json
  · simp [confWriteAutoconf, Commits, -bind_pure_comp, *]
  -- from here on the stream of `auto.json` stays open
  cases rheader : calls.rename .header
  · simp [confWriteAutoconf, Commits, -bind_pure_comp, *]
  cases rtristate : calls.rename .tristate
  · simp [confWriteAutoconf, Commits, -bind_pure_comp, *]
  cases rconf : calls.rename .conf
  · simp [confWriteAutoconf, Commits, -bind_pure_comp, *]
  cases rcmake : calls.rename .cmake
  · simp [confWriteAutoconf, Commits, -bind_pure_comp, *]
  cases rjson : calls.rename .json
  · simp [confWriteAutoconf, Commits, -bind_pure_comp, *]
  have hprinted : (confWriteAutoconf calls text).run {} =
      .ok 0 ⟨[.json], complete text, [.header, .tristate, .conf, .cmake, .json]⟩ := by
    simp [confWriteAutoconf, -bind_pure_comp, *]
    funext o
    cases o <;> simp [complete]
  rw [hprinted]
  exact fun h => flushed_ne (by simp [complete]) (h.1 (by simp) .json).2

/-- Nothing fails, and `auto.json` is not there when the function returns. -/
theorem not_commits :
    ¬ Commits 4096 ⟨true, fun _ => true, fun _ => true⟩ (fun _ => "BR2_A=y\n".toList)
      ((confWriteAutoconf ⟨true, fun _ => true, fun _ => true⟩
        fun _ => "BR2_A=y\n".toList).run {}) :=
  fun h => absurd (h.1 (by decide) .json).2 (by decide)

end Dir842.WriteAutoconf
