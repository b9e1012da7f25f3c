import Dir842.Lib.Memory
import Mathlib.Data.List.TakeWhile
import Mathlib.Tactic.Linarith

/-!
# The size of charon's log file

`check_log_file` of `0005_filelog_tracking.patch`, which `log_` calls after every message with both
locks released: it moves the second half of a log of 512 KiB or more to the front of the file and
cuts the rest off. How the system calls end is an input.
-/

namespace Dir842.FileLogger
open Memory

/-- `this->out`; what is written to a stream stays in it for a while. -/
inductive Stream
  | null
  | opened (pending : List UInt8)
  | closed

structure Logger where
  out : Stream
  /-- The mutex is held. -/
  locked : Bool
  /-- The content of `this->filename`. -/
  file : List UInt8

/-- How the calls of one `check_log_file` end. -/
structure Calls where
  /-- `info.st_size` where `stat` fails: nothing has set it. -/
  stat : Option Int := none
  opened : Bool := true
  mapped : Bool := true
  truncated : Bool := true
  reopened : Bool := true
  /-- What can be read behind the file's bytes in memory, before a fault. -/
  beyond : List UInt8 := []

inductive Outcome
  /-- `outside`: there was an access outside the mapped bytes. -/
  | returned (this : Logger) (outside : Bool)
  | killed

/-- 512 Kbyte -/
def max : Nat := 512 * 1024

def newline : UInt8 := 10

theorem newline_ne : newline ≠ 0 := nofun

/-- `if (this->out) fclose (this->out)` -/
def Logger.fclose (this : Logger) : Logger :=
  match this.out with
  | .opened pending => { this with out := .closed, file := this.file ++ pending }
  | _ => this

def ftruncate (ok : Bool) (length : Int) (file : List UInt8) : List UInt8 :=
  if ok ∧ 0 ≤ length then
    file.take length.toNat ++ List.replicate (length.toNat - file.length) 0
  else file

/-- The part of `check_log_file` with the file in memory. -/
def moveTail (calls : Calls) (size : Nat) (file : List UInt8) : Option (List UInt8 × Bool) :=
  let mem := file ++ calls.beyond
  let half := size / 2
  let copy (newSize : Int) (src last : Nat) :=
    let n := (size - newSize).toNat
    (memmove mem 0 src n).map fun mem' =>
      (ftruncate calls.truncated newSize (mem'.take file.length),
        decide (size ≤ last ∨ size < src + n ∨ size < n))
  match strchr newline mem half with
  | .fault => none
  | .found next => copy (half - (next - half)) next next
  | .ended last => copy half half last

def Logger.size (this : Logger) (calls : Calls) : Int := calls.stat.getD this.file.length

def checkLogFile (calls : Calls) (this : Logger) : Outcome :=
  let size := this.size calls
  if size < max then .returned this false
  else
    let this := { this.fclose with locked := true }
    if !calls.opened then .returned this false
    -- `dst` is `MAP_FAILED`, and the copy to it faults
    else if !calls.mapped then .killed
    else
      match moveTail calls size.toNat this.file with
      | none => .killed
      | some (file, outside) =>
        let out := if calls.reopened then .opened [] else .null
        .returned { out, locked := false, file } outside

/-! ### What a call should do -/

/-- The content from the first newline in the second half on, all the second half without one. -/
def tailOf (old : List UInt8) : List UInt8 :=
  let second := old.drop (old.length / 2)
  if newline ∈ second then second.dropWhile (· ≠ newline) else second

/-- None of the calls that the trimming needs fails. -/
structure Calls.Succeed (calls : Calls) : Prop where
  stat : calls.stat = none
  opened : calls.opened = true
  mapped : calls.mapped = true
  truncated : calls.truncated = true

structure Kept (calls : Calls) (this this' : Logger) (outside : Bool) : Prop where
  inside : outside = false
  released : this'.locked = false
  stream : this'.out ≠ .closed
  tail : calls.Succeed → max ≤ this.file.length →
    this'.file = tailOf this.file ∧ this'.file.length < this.file.length

def KeepsTail (calls : Calls) (this : Logger) : Prop :=
  ∃ this' outside, checkLogFile calls this = .returned this' outside ∧ Kept calls this this' outside

/-- The mapped bytes from the middle on. -/
def window (size : Nat) (mem : List UInt8) : List UInt8 := (mem.take size).drop (size / 2)

/-- The search for a newline ends in the mapped bytes, at once or without one. -/
def Stops (window : List UInt8) : Prop :=
  window.head? = some newline ∨ ∃ pre post, window = pre ++ 0 :: post ∧ Clear newline pre

structure Trims (calls : Calls) (size : Nat) (mem : List UInt8) : Prop where
  opened : calls.opened = true
  mapped : calls.mapped = true
  there : size ≤ mem.length
  stops : Stops (window size mem)
  whole : calls.Succeed →
    size % 2 = 0 ∧ ((window size mem).head? = some newline ∨ newline ∉ window size mem)

/-! ### The search and the move -/

section
variable {calls : Calls} {size : Nat} {mem file file' : List UInt8}

theorem drop_half (size : Nat) (mem : List UInt8) :
    mem.drop (size / 2) = window size mem ++ (mem.drop (size / 2)).drop (size - size / 2) := by
  rw [window, List.drop_take, List.take_append_drop]

/-- The search stays in the mapped bytes, and what follows it as well. -/
theorem stops_iff (hsize : 0 < size) : Stops (window size mem) ↔
    strchr newline mem (size / 2) = .found (size / 2) ∨
      ∃ last < size, strchr newline mem (size / 2) = .ended last := by
  have hlen : (window size mem).length ≤ size - size / 2 := by
    rw [window, List.length_drop]
    exact Nat.sub_le_sub_right (List.length_take_le ..) _
  have hdrop := drop_half size mem
  constructor
  · rintro (hhead | ⟨pre, post, hw, hpre⟩)
    · obtain ⟨post, hw⟩ := List.head?_eq_some_iff.mp hhead
      rw [hw, List.cons_append] at hdrop
      exact .inl (@strchr_found _ _ [] _ _ hdrop nofun)
    · rw [hw, List.append_assoc, List.cons_append] at hdrop
      refine .inr ⟨_, ?_, strchr_ended newline_ne hdrop hpre⟩
      rw [hw, List.length_append, List.length_cons] at hlen
      omega
  · intro h
    rcases clear_or_stops newline (mem.drop (size / 2)) with
      hclear | ⟨pre, b, post, hd, hpre, rfl | rfl⟩
    · rw [strchr_fault hclear] at h
      rcases h with ⟨⟨⟩⟩ | ⟨_, -, ⟨⟩⟩
    · rw [strchr_found hd hpre] at h
      rcases h with h | ⟨_, -, ⟨⟩⟩
      have hnil : pre = [] := by
        injection h with h
        exact List.eq_nil_of_length_eq_zero (by omega)
      subst hnil
      left
      rw [window, List.drop_take, hd, List.nil_append]
      obtain ⟨k, hk⟩ := Nat.exists_eq_succ_of_ne_zero (show size - size / 2 ≠ 0 by omega)
      rw [hk, List.take_succ_cons, List.head?_cons]
    · rw [strchr_ended newline_ne hd hpre] at h
      rcases h with h | ⟨last, hlast, h⟩
      · cases h
      injection h with h
      obtain ⟨k, hk⟩ := Nat.exists_eq_add_of_lt (show pre.length < size - size / 2 by omega)
      refine .inr ⟨pre, post.take k, ?_, hpre⟩
      rw [window, List.drop_take, hd, hk, Nat.add_assoc, List.take_length_add_append,
        List.take_succ_cons]

/-- The file after the second half has been moved to its front. -/
def moved (calls : Calls) (size : Nat) (file : List UInt8) : List UInt8 :=
  let mem := file ++ calls.beyond
  ftruncate calls.truncated (size / 2 : Nat)
    (((mem.drop (size / 2)).take (size - size / 2) ++ mem.drop (size - size / 2)).take file.length)

theorem copy_eq_some {half src : Nat} {newSize : Int} {n last : Nat}
    (hn : (size - newSize).toNat = n) :
    ((memmove mem 0 src (size - newSize).toNat).map fun mem' =>
        (ftruncate calls.truncated newSize (mem'.take half),
          decide (size ≤ last ∨ size < src + (size - newSize).toNat ∨
            size < (size - newSize).toNat))) = some (file', false) ↔
      src + n ≤ mem.length ∧ last < size ∧ src + n ≤ size ∧
        file' = ftruncate calls.truncated newSize (((mem.drop src).take n ++ mem.drop n).take half) := by
  subst hn
  rw [Option.map_eq_some_iff]
  constructor
  · rintro ⟨mem', hm, he⟩
    obtain ⟨hfile, hout⟩ := Prod.mk.inj he
    obtain ⟨hlen, -, rfl⟩ := memmove_eq_some.mp hm
    rw [decide_eq_false_iff_not, not_or, not_or, not_le, not_lt, not_lt] at hout
    refine ⟨hlen, hout.1, hout.2.1, ?_⟩
    rw [← hfile, Nat.zero_add, List.take_zero, List.nil_append]
  · rintro ⟨hlen, hlast, hsrc, rfl⟩
    refine ⟨_, memmove_eq_some.mpr ⟨hlen, by omega, rfl⟩, ?_⟩
    rw [Nat.zero_add, List.take_zero, List.nil_append, Prod.mk.injEq, decide_eq_false_iff_not]
    exact ⟨rfl, by omega⟩

theorem moveTail_inside (hsize : 0 < size) : moveTail calls size file = some (file', false) ↔
    size ≤ (file ++ calls.beyond).length ∧ Stops (window size (file ++ calls.beyond)) ∧
      file' = moved calls size file := by
  rw [stops_iff hsize]
  unfold moveTail
  dsimp only
  cases hs : strchr newline (file ++ calls.beyond) (size / 2) with
  | fault =>
    refine iff_of_false nofun ?_
    rintro ⟨-, ⟨⟨⟩⟩ | ⟨_, -, ⟨⟩⟩, -⟩
  | found next =>
    have hle := le_of_strchr_found hs
    dsimp only
    rw [@copy_eq_some calls size _ _ _ _ _ (size - size / 2 + (next - size / 2)) _ (by omega)]
    constructor
    · rintro ⟨hlen, -, hsrc, rfl⟩
      obtain rfl : next = size / 2 := by omega
      refine ⟨by omega, .inl rfl, ?_⟩
      rw [moved, Nat.sub_self, Nat.add_zero, sub_self, sub_zero]
    · rintro ⟨hlen, h | ⟨_, -, ⟨⟩⟩, rfl⟩
      injection h with h
      subst h
      refine ⟨by omega, by omega, by omega, ?_⟩
      rw [moved, Nat.sub_self, Nat.add_zero, sub_self, sub_zero]
  | ended last =>
    dsimp only
    rw [@copy_eq_some calls size _ _ _ _ _ (size - size / 2) _ (by omega)]
    constructor
    · rintro ⟨hlen, hlast, -, rfl⟩
      exact ⟨by omega, .inr ⟨last, hlast, rfl⟩, rfl⟩
    · rintro ⟨hlen, ⟨⟨⟩⟩ | ⟨last', hlast, h⟩, rfl⟩
      injection h with h
      subst h
      exact ⟨by omega, hlast, by omega, rfl⟩

/-- Where the calls succeed, the file ends up with one half of the old content. -/
theorem moved_eq (htr : calls.truncated = true) (old rest : List UInt8) :
    moved calls old.length (old ++ rest) =
      (old.drop (old.length / 2)).take (old.length / 2) := by
  have hhalf : (old.drop (old.length / 2)).length = old.length - old.length / 2 :=
    List.length_drop ..
  have hdrop : (old ++ rest ++ calls.beyond).drop (old.length / 2) =
      old.drop (old.length / 2) ++ (rest ++ calls.beyond) := by
    rw [List.append_assoc, List.drop_append_of_le_length (by omega)]
  have hlen : (old ++ rest).length ≤ (old.drop (old.length / 2) ++
      (old ++ rest ++ calls.beyond).drop (old.length - old.length / 2)).length := by
    simp only [List.length_append, List.length_drop]
    omega
  have hnone : old.length / 2 - (old ++ rest).length = 0 := by
    rw [List.length_append]
    omega
  unfold moved ftruncate
  dsimp only
  rw [if_pos ⟨htr, Int.natCast_nonneg _⟩, hdrop, List.take_append_of_le_length (Nat.le_of_eq hhalf.symm),
    List.take_of_length_le (Nat.le_of_eq hhalf), Int.toNat_natCast, List.length_take,
    Nat.min_eq_left hlen, hnone, List.replicate_zero, List.append_nil, List.take_take,
    Nat.min_eq_left (by rw [List.length_append]; omega),
    List.take_append_of_le_length (by omega)]

theorem tailOf_of_head {old : List UInt8} (h : (old.drop (old.length / 2)).head? = some newline ∨
    newline ∉ old.drop (old.length / 2)) : tailOf old = old.drop (old.length / 2) := by
  unfold tailOf
  dsimp only
  rcases h with h | h
  · obtain ⟨post, hpost⟩ := List.head?_eq_some_iff.mp h
    rw [hpost, if_pos (List.mem_cons_self ..), List.dropWhile_cons_of_neg (by simp)]
  · rw [if_neg h]

theorem head?_tailOf {old : List UInt8} (h : newline ∈ old.drop (old.length / 2)) :
    (tailOf old).head? = some newline := by
  unfold tailOf
  dsimp only
  rw [if_pos h]
  have hstop := List.head?_dropWhile_not (· ≠ newline) (old.drop (old.length / 2))
  cases hd : ((old.drop (old.length / 2)).dropWhile (· ≠ newline)).head? with
  | none =>
    have hall := List.dropWhile_eq_nil_iff.mp (List.head?_eq_none_iff.mp hd)
    exact absurd (hall _ h) (by simp)
  | some b =>
    rw [hd] at hstop
    simpa using hstop

/-- Half of the content is the tail where it is all of the second half, and this the tail. -/
theorem half_eq_tailOf_iff {old : List UInt8} (hold : 2 ≤ old.length) :
    ((old.drop (old.length / 2)).take (old.length / 2) = tailOf old ∧
        ((old.drop (old.length / 2)).take (old.length / 2)).length < old.length) ↔
      old.length % 2 = 0 ∧ ((old.drop (old.length / 2)).head? = some newline ∨
        newline ∉ old.drop (old.length / 2)) := by
  have hlen : (old.drop (old.length / 2)).length = old.length - old.length / 2 :=
    List.length_drop ..
  constructor
  · rintro ⟨heq, -⟩
    have hhead : (old.drop (old.length / 2)).head? = some newline ∨
        newline ∉ old.drop (old.length / 2) := by
      by_cases hmem : newline ∈ old.drop (old.length / 2)
      · have hh := head?_tailOf hmem
        rw [← heq, List.head?_take, if_neg (by omega)] at hh
        exact .inl hh
      · exact .inr hmem
    refine ⟨?_, hhead⟩
    rw [tailOf_of_head hhead] at heq
    have hl := congrArg List.length heq
    rw [List.length_take] at hl
    omega
  · rintro ⟨heven, hhead⟩
    rw [tailOf_of_head hhead, List.take_of_length_le (by omega)]
    exact ⟨rfl, by omega⟩

end

theorem fclose_file (this : Logger) : ∃ rest, this.fclose.file = this.file ++ rest := by
  unfold Logger.fclose
  split
  · exact ⟨_, rfl⟩
  · exact ⟨[], (List.append_nil _).symm⟩

/-- The bytes that can be read once the file is in memory. -/
def Logger.mem (this : Logger) (calls : Calls) : List UInt8 := this.fclose.file ++ calls.beyond

theorem moved_eq_tailOf_iff {calls : Calls} {this : Logger} (hs : calls.Succeed)
    (hold : 2 ≤ this.file.length) :
    (moved calls (this.size calls).toNat this.fclose.file = tailOf this.file ∧
        (moved calls (this.size calls).toNat this.fclose.file).length < this.file.length) ↔
      (this.size calls).toNat % 2 = 0 ∧
        ((window (this.size calls).toNat (this.mem calls)).head? = some newline ∨
          newline ∉ window (this.size calls).toNat (this.mem calls)) := by
  obtain ⟨rest, hrest⟩ := fclose_file this
  have hsize : (this.size calls).toNat = this.file.length := by
    rw [Logger.size, hs.stat, Option.getD_none, Int.toNat_natCast]
  have hwindow : window this.file.length (this.mem calls) =
      this.file.drop (this.file.length / 2) := by
    rw [window, Logger.mem, hrest, List.append_assoc, List.take_left]
  rw [hsize, hwindow, hrest, moved_eq hs.truncated]
  exact half_eq_tailOf_iff hold

/-- The runs that get through without a stray access and let the mutex go. -/
theorem checkLogFile_inside {calls : Calls} {this this' : Logger}
    (hbig : ¬ this.size calls < max) :
    checkLogFile calls this = .returned this' false ∧ this'.locked = false ↔
      calls.opened = true ∧ calls.mapped = true ∧
        (this.size calls).toNat ≤ (this.mem calls).length ∧
        Stops (window (this.size calls).toNat (this.mem calls)) ∧
        this' = { out := if calls.reopened then .opened [] else .null, locked := false
                  file := moved calls (this.size calls).toNat this.fclose.file } := by
  unfold checkLogFile
  dsimp only
  rw [if_neg hbig]
  cases calls.opened with
  | false =>
    refine iff_of_false ?_ nofun
    rintro ⟨he, hl⟩
    injection he with he
    rw [← he] at hl
    cases hl
  | true =>
    cases calls.mapped with
    | false => exact iff_of_false (by rintro ⟨⟨⟩, -⟩) (by rintro ⟨-, ⟨⟩, -⟩)
    | true =>
      have hsize : 0 < (this.size calls).toNat := by
        unfold max at hbig
        omega
      have htail := fun file' => @moveTail_inside calls _ this.fclose.file file' hsize
      constructor
      · rintro ⟨he, -⟩
        cases hm : moveTail calls (this.size calls).toNat this.fclose.file with
        | none =>
          rw [hm] at he
          cases he
        | some r =>
          obtain ⟨file, outside⟩ := r
          rw [hm] at he
          injection he with he ho
          subst ho
          obtain ⟨hthere, hstops, hfile⟩ := (htail _).mp hm
          exact ⟨rfl, rfl, hthere, hstops, hfile ▸ he.symm⟩
      · rintro ⟨-, -, hthere, hstops, rfl⟩
        rw [(htail _).mpr ⟨hthere, hstops, rfl⟩]
        exact ⟨rfl, rfl⟩

/-- A call keeps the tail, and leaves the logger in order, exactly here. -/
theorem keepsTail_iff (calls : Calls) (this : Logger) (hlock : this.locked = false)
    (hout : this.out ≠ .closed) :
    KeepsTail calls this ↔ this.size calls < max ∨
      Trims calls (this.size calls).toNat (this.mem calls) := by
  by_cases hbig : this.size calls < max
  · refine iff_of_true ⟨this, false, if_pos hbig, rfl, hlock, hout, fun hs hmax => ?_⟩ (.inl hbig)
    rw [Logger.size, hs.stat, Option.getD_none] at hbig
    omega
  rw [or_iff_right hbig]
  constructor
  · rintro ⟨this', outside, he, hk⟩
    obtain ⟨hopen, hmap, hthere, hstops, rfl⟩ :=
      (checkLogFile_inside hbig).mp ⟨hk.inside ▸ he, hk.released⟩
    refine ⟨hopen, hmap, hthere, hstops, fun hs => ?_⟩
    have hmax : max ≤ this.file.length := by
      rw [Logger.size, hs.stat, Option.getD_none] at hbig
      omega
    exact (moved_eq_tailOf_iff hs (le_trans (by decide) hmax)).mp (hk.tail hs hmax)
  · intro h
    obtain ⟨he, hl⟩ :=
      (checkLogFile_inside hbig).mpr ⟨h.opened, h.mapped, h.there, h.stops, rfl⟩
    refine ⟨_, _, he, rfl, hl, ?_, fun hs hmax => ?_⟩
    · dsimp only
      split <;> exact nofun
    · exact (moved_eq_tailOf_iff hs (le_trans (by decide) hmax)).mpr (h.whole hs)

/-! A log of 512 KiB with a newline in the middle, and one that is a byte longer. -/

def logOf (n : Nat) : Logger :=
  { out := .opened [], locked := false
    file := List.replicate (256 * 1024) 97 ++ newline :: List.replicate n 98 }

theorem logOf_length (n : Nat) : (logOf n).file.length = 256 * 1024 + 1 + n := by
  simp only [logOf, List.length_append, List.length_cons, List.length_replicate]
  omega

theorem logOf_size (n : Nat) : (logOf n).size {} = ((256 * 1024 + 1 + n : Nat) : Int) := by
  rw [← logOf_length n]
  rfl

theorem logOf_mem (n : Nat) : (logOf n).mem {} = (logOf n).file := by
  simp only [Logger.mem, Logger.fclose, logOf, List.append_nil]

theorem logOf_window {n : Nat} (h : (256 * 1024 + 1 + n) / 2 = 256 * 1024) :
    window ((logOf n).size {}).toNat ((logOf n).mem {}) = newline :: List.replicate n 98 := by
  rw [window, logOf_mem, logOf_size, Int.toNat_natCast, h, ← logOf_length n, List.take_length]
  exact List.drop_left' List.length_replicate

theorem keepsTail_logOf : KeepsTail {} (logOf (256 * 1024 - 1)) := by
  have hhead := congrArg List.head? (@logOf_window (256 * 1024 - 1) rfl)
  refine (keepsTail_iff {} (logOf (256 * 1024 - 1)) rfl nofun).mpr (.inr ?_)
  refine ⟨rfl, rfl, ?_, .inl hhead, fun _ => ⟨?_, .inl hhead⟩⟩
  · rw [logOf_size, logOf_mem, logOf_length, Int.toNat_natCast]
  · rw [logOf_size, Int.toNat_natCast]

/-- The last byte is lost. -/
theorem not_keepsTail_logOf : ¬ KeepsTail {} (logOf (256 * 1024)) := by
  have hmax : max ≤ (logOf (256 * 1024)).file.length := by
    rw [logOf_length]
    decide
  have hbig : ¬ (logOf (256 * 1024)).size {} < max := by
    rw [logOf_size]
    decide
  rintro ⟨this', outside, he, hk⟩
  obtain ⟨-, -, -, -, rfl⟩ := (checkLogFile_inside hbig).mp ⟨hk.inside ▸ he, hk.released⟩
  have hall : Calls.Succeed {} := ⟨rfl, rfl, rfl, rfl⟩
  have hodd := ((moved_eq_tailOf_iff hall (le_trans (by decide) hmax)).mp (hk.tail hall hmax)).1
  rw [logOf_size, Int.toNat_natCast] at hodd
  cases hodd

end Dir842.FileLogger
