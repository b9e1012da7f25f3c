import Dir842.Target.Pack
import Mathlib.Algebra.Order.Ring.Int
import Mathlib.Order.Bounds.Basic
import Mathlib.Tactic.Ring

/-!
# Rounding a file (`round_file` of `pack_misc.py` and `round_file.sh`)

The file grows with zeros until it ends `tail` bytes before the end of a block, so that what is
appended behind a header of that length starts on a block boundary.
-/

namespace Dir842.RoundFile

open Pack (Bytes)

/-- The computation of both scripts, with the division of the language. -/
def targetSize (div mod : Int → Int → Int) (size blockSize tail : Int) : Int :=
  let nblock := div size blockSize
  let nblock := if mod size blockSize ≠ 0 then nblock + 1 else nblock
  let nblock := if nblock * blockSize - size < tail then nblock + 1 else nblock
  nblock * blockSize - tail

/-- `seek` and `write`; a gap reads as zeros. -/
def writeAt (content : Bytes) (pos : Nat) (bytes : Bytes) : Bytes :=
  content.take pos ++ List.replicate (pos - content.length) 0 ++ bytes ++
    content.drop (pos + bytes.length)

/-- `round_file`; `none` is the division by zero. -/
def roundFile (content : Bytes) (blockSize tail : Int) : Option Bytes :=
  if blockSize = 0 then none
  else
    let size : Int := content.length
    let target := targetSize Int.fdiv Int.fmod size blockSize tail
    some (if target - size > 0 then writeAt content (target - 1).toNat [0] else content)

/-! ### The shell -/

def wrap (i : Int) : Int := i.bmod (2 ^ 64)

/-- The computation of the shell, in 64 bits. -/
def targetSizeSh (size blockSize tail : Int) : Int :=
  let nblock := size.tdiv blockSize
  let nblock := if size.tmod blockSize ≠ 0 then wrap (nblock + 1) else nblock
  let nblock :=
    if wrap (wrap (nblock * blockSize) - size) < tail then wrap (nblock + 1) else nblock
  wrap (wrap (nblock * blockSize) - tail)

/-- `MAX_RW_COUNT` of Linux, the most that one `read` gives. -/
def maxRwCount : Nat := 2147479552

/-- How many bytes `dd bs=n count=1` copies from `/dev/zero`. It reads once, and may not get the
memory for a large block. -/
structure Dd where
  written : Nat → Nat
  whole : ∀ n ≤ maxRwCount, written n = n
  le : ∀ n, written n ≤ maxRwCount

/-- `round_file.sh` -/
def roundFileSh (dd : Dd) (content : Bytes) (blockSize tail : Int) : Bytes :=
  if blockSize ≤ 0 then content
  else
    let size : Int := content.length
    let diff := wrap (targetSizeSh size blockSize tail - size)
    if diff > 0 then content ++ List.replicate (dd.written diff.toNat) 0 else content

/-- A positive number that the shell can hold. -/
structure Block where
  size : Nat
  pos : 0 < size
  lt : size < 2 ^ 63

/-! ### The target size -/

/-- What is missing to the next multiple of the block. -/
def gap (size block : Int) : Int := if size % block = 0 then 0 else block - size % block

section
variable {size block tail : Int}

theorem gap_nonneg (h : 0 < block) : 0 ≤ gap size block := by
  have hlt := Int.emod_lt_of_pos size h
  unfold gap
  split_ifs <;> omega

theorem gap_lt (h : 0 < block) : gap size block < block := by
  have hnonneg := Int.emod_nonneg size h.ne'
  unfold gap
  split_ifs <;> omega

theorem dvd_size_add_gap (size block : Int) : block ∣ size + gap size block := by
  unfold gap
  split_ifs with hmod
  · rw [add_zero]
    exact Int.dvd_of_emod_eq_zero hmod
  · have hdvd : block ∣ size - size % block := Int.dvd_self_sub_of_emod_eq rfl
    have heq : size + (block - size % block) = (size - size % block) + block := by ring
    rw [heq]
    exact Int.dvd_add hdvd (Int.dvd_refl block)

/-- `NBLOCK` before the tail is looked at. -/
theorem ceil_mul (size block : Int) :
    (if size % block ≠ 0 then size / block + 1 else size / block) * block =
      size + gap size block := by
  have hdiv : size / block * block = size - size % block := by
    have hself := Int.ediv_mul_add_emod size block
    omega
  unfold gap
  by_cases hmod : size % block = 0
  · rw [if_neg (not_not.mpr hmod), if_pos hmod, hdiv, hmod]
    omega
  · rw [if_pos hmod, if_neg hmod, add_mul, one_mul, hdiv]
    omega

theorem targetSize_eq (size block tail : Int) :
    targetSize (· / ·) (· % ·) size block tail =
      size + gap size block + (if gap size block < tail then block else 0) - tail := by
  have hsub : size + gap size block - size = gap size block := by omega
  simp only [targetSize, ceil_mul, hsub]
  by_cases hfit : gap size block < tail
  · rw [if_pos hfit, if_pos hfit, add_mul, ceil_mul, one_mul]
  · rw [if_neg hfit, if_neg hfit, ceil_mul, add_zero]

/-- The target is aligned, less than a block above the size, and not below it where the tail fits
into a block behind the gap. -/
theorem targetSize_spec (h : 0 < block) (htail : 0 ≤ tail) :
    block ∣ targetSize (· / ·) (· % ·) size block tail + tail ∧
      targetSize (· / ·) (· % ·) size block tail < size + block ∧
      (size ≤ targetSize (· / ·) (· % ·) size block tail ↔ tail ≤ gap size block + block) := by
  have hlt := @gap_lt size block h
  have hdvd := dvd_size_add_gap size block
  rw [targetSize_eq]
  split_ifs
  · rw [sub_add_cancel]
    exact ⟨Int.dvd_add hdvd (Int.dvd_refl block), by omega, by omega⟩
  · rw [sub_add_cancel, add_zero]
    exact ⟨hdvd, by omega, by omega⟩

/-- Aligned sizes are a block apart. -/
theorem isLeast_of_lt {target : Int} (hle : size ≤ target) (hdvd : block ∣ target + tail)
    (hlt : target < size + block) : IsLeast {v : Int | size ≤ v ∧ block ∣ v + tail} target := by
  refine ⟨⟨hle, hdvd⟩, fun v hv => ?_⟩
  obtain ⟨hv, hvdvd⟩ := hv
  by_contra hless
  have hsub : block ∣ target - v := by
    have hdiff := Int.dvd_sub hdvd hvdvd
    rwa [add_sub_add_right_eq_sub] at hdiff
  have hblock := Int.le_of_dvd (by omega) hsub
  omega

/-! ### The arithmetic of the shell -/

theorem wrap_of_lt {i : Int} (hle : -2 ^ 63 ≤ i) (hlt : i < 2 ^ 63) : wrap i = i :=
  Int.bmod_eq_of_le (by omega) (by omega)

theorem wrap_mul {n m b : Int} (h : wrap n = wrap m) : wrap (n * b) = wrap (m * b) := by
  unfold wrap at h ⊢
  rw [← Int.bmod_mul_bmod, h, Int.bmod_mul_bmod]

theorem wrap_sub (i j : Int) : wrap (wrap i - j) = wrap (i - j) := Int.bmod_sub_bmod

theorem wrap_add_one {n m : Int} (h : wrap n = wrap m) : wrap (wrap (n + 1)) = wrap (m + 1) := by
  unfold wrap at h ⊢
  rw [Int.bmod_bmod, ← Int.bmod_add_bmod, h, Int.bmod_add_bmod]

/-- What is missing to the target does not suffer from the shell counting modulo `2 ^ 64`. -/
theorem wrap_targetSizeSh_sub (hsize : 0 ≤ size) (h : 0 < block) (hblock : block < 2 ^ 63) :
    wrap (targetSizeSh size block tail - size) =
      wrap (targetSize (· / ·) (· % ·) size block tail - size) := by
  have hgap : wrap (gap size block) = gap size block := by
    have hnonneg := @gap_nonneg size block h
    exact wrap_of_lt (by omega) ((gap_lt h).trans hblock)
  have hceil : wrap (if size % block ≠ 0 then wrap (size / block + 1) else size / block) =
      wrap (if size % block ≠ 0 then size / block + 1 else size / block) := by
    split_ifs
    · exact Int.bmod_bmod
    · rfl
  have hmul := ceil_mul size block
  simp only [targetSize, targetSizeSh, Int.tdiv_eq_ediv_of_nonneg hsize,
    Int.tmod_eq_emod_of_nonneg hsize]
  generalize (if size % block ≠ 0 then wrap (size / block + 1) else size / block) = n at *
  generalize (if size % block ≠ 0 then size / block + 1 else size / block) = m at *
  have hsub : m * block - size = gap size block := by omega
  have htest : wrap (wrap (n * block) - size) = gap size block := by
    rw [wrap_mul hceil, wrap_sub, hsub, hgap]
  rw [htest, hsub, wrap_sub]
  by_cases hfit : gap size block < tail
  · rw [if_pos hfit, if_pos hfit, wrap_mul (wrap_add_one hceil), ← wrap_sub, wrap_sub _ tail, wrap_sub]
  · rw [if_neg hfit, if_neg hfit, wrap_mul hceil, ← wrap_sub, wrap_sub _ tail, wrap_sub]

theorem neg_tail_le (h : 0 < block) :
    -tail ≤ targetSize (· / ·) (· % ·) size block tail - size := by
  have hnonneg := @gap_nonneg size block h
  rw [targetSize_eq]
  split_ifs <;> omega

end

/-! ### The file -/

section
variable (content : Bytes) {block : Int} (tail : Int)

theorem writeAt_of_le {pos : Nat} (h : content.length ≤ pos) :
    writeAt content pos [0] = content ++ List.replicate (pos + 1 - content.length) 0 := by
  rw [writeAt, List.take_of_length_le h, List.drop_eq_nil_of_le (by simp; omega), List.append_nil,
    List.append_assoc, ← List.replicate_succ', Nat.succ_sub h]

/-- What is missing to the target. -/
def diff (content : Bytes) (block tail : Int) : Int :=
  targetSize (· / ·) (· % ·) content.length block tail - content.length

/-- The content with zeros up to the target. -/
def padded (content : Bytes) (block tail : Int) : Bytes :=
  content ++ List.replicate (diff content block tail).toNat 0

theorem targetSize_fdiv (h : 0 < block) :
    targetSize Int.fdiv Int.fmod content.length block tail =
      targetSize (· / ·) (· % ·) content.length block tail := by
  simp only [targetSize, Int.fdiv_eq_ediv_of_nonneg _ h.le, Int.fmod_eq_emod_of_nonneg _ h.le]

theorem roundFile_eq (h : 0 < block) :
    roundFile content block tail = some (padded content block tail) := by
  rw [roundFile, if_neg h.ne', padded, diff]
  simp only [targetSize_fdiv content tail h]
  split_ifs with hgrow
  · rw [writeAt_of_le _ (by omega)]
    congr 4
    omega
  · rw [Int.toNat_of_nonpos (by omega), List.replicate_zero, List.append_nil]

theorem length_padded :
    ((padded content block tail).length : Int) =
      max (content.length : Int) (targetSize (· / ·) (· % ·) content.length block tail) := by
  rw [padded, diff, List.length_append, List.length_replicate]
  omega

end

section
variable (dd : Dd) (content : Bytes) (block : Block) {tail : Nat}

theorem Dd.written_zero : dd.written 0 = 0 := dd.whole 0 (Nat.zero_le _)

theorem roundFileSh_eq (htail : tail < 2 ^ 63) :
    roundFileSh dd content block.size tail =
      content ++ List.replicate (dd.written (diff content block.size tail).toNat) 0 := by
  have hpos : (0 : Int) < block.size := Int.natCast_pos.mpr block.pos
  have hblock : (block.size : Int) < 2 ^ 63 := by exact_mod_cast block.lt
  obtain ⟨-, hlt, -⟩ := @targetSize_spec content.length block.size tail hpos (Int.natCast_nonneg _)
  have hle := @neg_tail_le content.length block.size tail hpos
  have hwrap : wrap (targetSizeSh content.length block.size tail - content.length) =
      diff content block.size tail := by
    rw [wrap_targetSizeSh_sub (Int.natCast_nonneg _) hpos hblock, diff]
    exact wrap_of_lt (by omega) (by omega)
  rw [roundFileSh, if_neg (not_le.mpr hpos)]
  simp only [hwrap]
  split_ifs with hgrow
  · rfl
  · rw [Int.toNat_of_nonpos (not_lt.mp hgrow), dd.written_zero, List.replicate_zero,
      List.append_nil]

/-- One `read` is enough. -/
theorem roundFileSh_eq_padded (htail : tail < 2 ^ 63)
    (hdiff : diff content block.size tail ≤ maxRwCount) :
    roundFileSh dd content block.size tail = padded content block.size tail := by
  rw [roundFileSh_eq dd content block htail, dd.whole _ (Int.toNat_le.mpr hdiff), padded]

end

theorem isLeast_padded (content : Bytes) {block tail : Int} (hblock : 0 < block)
    (htail : 0 ≤ tail) (hle : tail ≤ block) :
    IsLeast {v : Int | content.length ≤ v ∧ block ∣ v + tail}
      (padded content block tail).length := by
  obtain ⟨hdvd, hlt, hsize⟩ := @targetSize_spec content.length block tail hblock htail
  have hgap := @gap_nonneg content.length block hblock
  have hgrown := hsize.mpr (by omega)
  rw [length_padded, max_eq_right hgrown]
  exact isLeast_of_lt hgrown hdvd hlt

/-- Both scripts leave the same file: the old content and zeros behind it, up to the least size
that is aligned. -/
structure Aligned (dd : Dd) (content : Bytes) (block : Block) (tail : Nat) : Prop where
  same : roundFile content block.size tail = some (roundFileSh dd content block.size tail)
  least : IsLeast {v : Nat | content.length ≤ v ∧ block.size ∣ v + tail}
    (roundFileSh dd content block.size tail).length
  zeros : ∃ n, roundFileSh dd content block.size tail = content ++ List.replicate n 0

theorem roundFile_aligned_iff (dd : Dd) (content : Bytes) (block : Block) {tail : Nat}
    (htail : tail ≤ block.size) :
    Aligned dd content block tail ↔ diff content block.size tail ≤ maxRwCount := by
  have hpos : (0 : Int) < block.size := Int.natCast_pos.mpr block.pos
  have htail' : tail < 2 ^ 63 := htail.trans_lt block.lt
  constructor
  · intro h
    by_contra hlarge
    -- `dd` has written less than Python has
    have hlength := congrArg List.length (Option.some.inj
      ((roundFile_eq content tail hpos).symm.trans h.same))
    rw [roundFileSh_eq dd content block htail', padded, List.length_append, List.length_append,
      List.length_replicate, List.length_replicate] at hlength
    have hle := dd.le (diff content block.size tail).toNat
    omega
  · intro hdiff
    have heq := roundFileSh_eq_padded dd content block htail' hdiff
    have hleast := isLeast_padded content hpos (Int.natCast_nonneg tail) (Int.ofNat_le.mpr htail)
    rw [← heq] at hleast
    refine ⟨(roundFile_eq content tail hpos).trans (congrArg some heq.symm),
      ⟨⟨?_, ?_⟩, fun v hv => ?_⟩, _, roundFileSh_eq dd content block htail'⟩
    · exact Int.ofNat_le.mp hleast.1.1
    · exact Int.natCast_dvd_natCast.mp (by rw [Nat.cast_add]; exact hleast.1.2)
    · refine Int.ofNat_le.mp (hleast.2 ⟨Int.ofNat_le.mpr hv.1, ?_⟩)
      rw [← Nat.cast_add]
      exact Int.natCast_dvd_natCast.mpr hv.2

/-- A `dd` that gets all the memory it asks for. -/
def ddAll : Dd := ⟨fun n => min n maxRwCount, fun _ => min_eq_left, fun _ => min_le_right ..⟩

/-- A kernel of three bytes, a block of eight and a header of two. -/
theorem roundFile_aligned_iff_three :
    Aligned ddAll [1, 2, 3] ⟨8, by decide, by decide⟩ 2 ↔ diff [1, 2, 3] 8 2 ≤ maxRwCount :=
  roundFile_aligned_iff ddAll [1, 2, 3] ⟨8, by decide, by decide⟩ (by decide)

/-- A file of one byte is to grow to a block of 4 GiB. -/
theorem not_roundFile_aligned : ¬Aligned ddAll [0] ⟨2 ^ 32, by decide, by decide⟩ 16 := by
  rw [roundFile_aligned_iff _ _ _ (by decide)]
  decide

end Dir842.RoundFile
