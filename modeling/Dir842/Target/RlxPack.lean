import Dir842.Lib.Run
import Dir842.Target.RoundFile

/-!
# Assembling an image for RTL819x (`rlx_819x_pack.mk`, `pack_arch.py`)

The targets of `pack_image` share three temporary files in `BINARIES_DIR`, which are removed when
`cvimg` has run. A command may fail when it has written a part of its output, and nothing runs
after it. The profile is not an alpha one.
-/

namespace Dir842.RlxPack

open Pack (Bytes)
open RoundFile Run

/-- `CVIMG_HEADER_SIZE` -/
def cvimgHeaderSize : Nat := 16

structure Temp where
  /-- `TMP_KRN` -/
  krn : Option Bytes
  /-- `TMP_RF` -/
  rf : Option Bytes
  /-- `TMP_FW` -/
  fw : Option Bytes

structure Inputs where
  kernel : Bytes
  rootfs : Bytes

/-- The commands of the recipes, in the order in which make runs them. -/
inductive Command
  /-- `prepare_krn`: `cat … > $(TMP_KRN)` -/
  | catKernel
  /-- `prepare_krn`: `round_file.sh` -/
  | roundKernel
  /-- `prepare_rootfs`: `cat … >> $(TMP_RF)` -/
  | catRootfs
  /-- `union`: `cat $(TMP_KRN) > $(TMP_FW)` -/
  | unionKrn
  /-- `union`: `cat $(TMP_RF) >> $(TMP_FW)` -/
  | unionRf
  /-- The host tools are built, and `cvimg` reads `TMP_FW`. -/
  | cvimg
  /-- `rm -rf $(TMP_KRN) $(TMP_RF) $(TMP_FW)` -/
  | rm
  /-- The header and the signature of the image. -/
  | sign

def commands : List Command :=
  [.catKernel, .roundKernel, .catRootfs, .unionKrn, .unionRf, .cvimg, .rm, .sign]

/-- What a command has written when it fails after `cut` bytes. -/
def written (cut : Option Nat) (bytes : Bytes) : Bytes :=
  match cut with
  | none => bytes
  | some n => bytes.take n

/-- The padding is `BR2_RLX_KERNEL_PADDING`. -/
def Command.run (dd : Dd) (p : Block) (i : Inputs) (cut : Option Nat) (s : Temp) : Command → Temp
  | catKernel => { s with krn := some (written cut i.kernel) }
  | roundKernel =>
    { s with krn := s.krn.map fun krn =>
        krn ++ written cut ((roundFileSh dd krn p.size cvimgHeaderSize).drop krn.length) }
  | catRootfs => { s with rf := some (s.rf.getD [] ++ written cut i.rootfs) }
  | unionKrn => { s with fw := some (written cut (s.krn.getD [])) }
  | unionRf => { s with fw := some (s.fw.getD [] ++ written cut (s.rf.getD [])) }
  | cvimg => s
  | rm =>
    match cut with
    | none => ⟨none, none, none⟩
    | some 0 => s
    | some 1 => { s with krn := none }
    | some _ => { s with krn := none, rf := none }
  | sign => s

def runAll (dd : Dd) (p : Block) (i : Inputs) (s : Temp) (cs : List Command) : Temp :=
  cs.foldl (fun s c => c.run dd p i none s) s

/-- A run of `pack_image`; `stop` is the command that fails and what it has written. -/
structure Invocation where
  inputs : Inputs
  stop : Option (Nat × Nat)

def invoke (dd : Dd) (p : Block) (s : Temp) (e : Invocation) : Temp :=
  match e.stop with
  | none => runAll dd p e.inputs s commands
  | some (k, n) =>
    match commands[k]? with
    | some c => c.run dd p e.inputs (some n) (runAll dd p e.inputs s (commands.take k))
    | none => runAll dd p e.inputs s commands

/-- `prepare_krn`, `prepare_rootfs` and `union` have run. -/
def Invocation.Assembles (e : Invocation) : Prop := ∀ k n, e.stop = some (k, n) → 5 ≤ k

/-- `TMP_FW` when `union` has run. -/
def assembled (dd : Dd) (p : Block) (s : Temp) (e : Invocation) : Option Bytes :=
  (runAll dd p e.inputs s (commands.take 5)).fw

/-- `prop_pack`, up to the firmware that `cvimg` reads; files are opened with truncation. -/
def propPack (i : Inputs) (s : Temp) : Option Temp := do
  let krn ← roundFile i.kernel (64 * 1024) 16
  let s := { s with krn := some krn }
  let s := { s with rf := some i.rootfs }
  return { s with fw := some (s.krn.getD [] ++ s.rf.getD []) }

/-! ### What is assembled -/

/-- The padded kernel and the root filesystem. -/
def offset (dd : Dd) (p : Block) (i : Inputs) : Nat :=
  (roundFileSh dd i.kernel p.size cvimgHeaderSize).length

def firmware (dd : Dd) (p : Block) (i : Inputs) : Bytes :=
  roundFileSh dd i.kernel p.size cvimgHeaderSize ++ i.rootfs

structure Right (dd : Dd) (p : Block) (s : Temp) (e : Invocation) : Prop where
  firmware : assembled dd p s e = some (firmware dd p e.inputs)
  zeros : ∃ n, RlxPack.firmware dd p e.inputs =
    e.inputs.kernel ++ List.replicate n 0 ++ e.inputs.rootfs
  aligned : p.size ∣ cvimgHeaderSize + offset dd p e.inputs
  propPack : p.size = 64 * 1024 → ∀ s', (propPack e.inputs s').bind Temp.fw = assembled dd p s e

/-- The padding leaves room for the header behind the kernel, and one `read` gives the zeros. -/
structure Fits (p : Block) (i : Inputs) : Prop where
  room : cvimgHeaderSize ≤ gap i.kernel.length p.size + p.size ∨
    p.size ∣ i.kernel.length + cvimgHeaderSize
  diff : diff i.kernel p.size cvimgHeaderSize ≤ maxRwCount

variable {dd : Dd} {p : Block} {s : Temp} {e : Invocation}

theorem header_lt : cvimgHeaderSize < 2 ^ 63 := by decide

theorem exists_drop_roundFileSh (krn : Bytes) :
    krn ++ (roundFileSh dd krn p.size cvimgHeaderSize).drop krn.length =
      roundFileSh dd krn p.size cvimgHeaderSize := by
  rw [roundFileSh_eq _ _ _ header_lt, List.drop_left]

theorem assembled_eq : assembled dd p s e =
    some (roundFileSh dd e.inputs.kernel p.size cvimgHeaderSize ++
      (s.rf.getD [] ++ e.inputs.rootfs)) := by
  rw [← exists_drop_roundFileSh]
  rfl

theorem firmware_iff : assembled dd p s e = some (firmware dd p e.inputs) ↔ s.rf.getD [] = [] := by
  rw [assembled_eq, firmware, Option.some.injEq, List.append_cancel_left_eq]
  exact List.append_left_eq_self

theorem firmware_eq (dd : Dd) (p : Block) (i : Inputs) :
    firmware dd p i = i.kernel ++
      List.replicate (dd.written (diff i.kernel p.size cvimgHeaderSize).toNat) 0 ++ i.rootfs := by
  rw [firmware, roundFileSh_eq _ _ _ header_lt]

/-- A padding shorter than the header may be missed by one block. -/
theorem aligned_iff (dd : Dd) (p : Block) (i : Inputs) :
    p.size ∣ cvimgHeaderSize + offset dd p i ↔ Fits p i := by
  have hpos : (0 : Int) < p.size := Int.natCast_pos.mpr p.pos
  obtain ⟨hdvd, hlt, hle⟩ := @targetSize_spec i.kernel.length p.size cvimgHeaderSize hpos
    (Int.natCast_nonneg _)
  by_cases hdiff : diff i.kernel p.size cvimgHeaderSize ≤ maxRwCount
  · have hlength := @length_padded i.kernel p.size cvimgHeaderSize
    have hoffset : offset dd p i = (padded i.kernel p.size cvimgHeaderSize).length := by
      rw [offset, roundFileSh_eq_padded _ _ _ header_lt hdiff]
    have hroom : p.size ∣ cvimgHeaderSize + offset dd p i ↔
        cvimgHeaderSize ≤ gap i.kernel.length p.size + p.size ∨
          p.size ∣ i.kernel.length + cvimgHeaderSize := by
      rw [hoffset, add_comm, ← Int.natCast_dvd_natCast, Nat.cast_add, hlength]
      by_cases hgrown : (cvimgHeaderSize : Int) ≤ gap i.kernel.length p.size + p.size
      · rw [max_eq_right (hle.mpr hgrown)]
        exact iff_of_true hdvd (.inl hgrown)
      · rw [max_eq_left (not_le.mp (mt hle.mp hgrown)).le, or_iff_right hgrown, ← Nat.cast_add,
          Int.natCast_dvd_natCast]
    exact ⟨fun h => ⟨hroom.mp h, hdiff⟩, fun h => hroom.mpr h.room⟩
  · -- `dd` stops before the target, in the block that ends there
    refine iff_of_false (fun h => ?_) fun h => hdiff h.diff
    have hwritten := dd.le (diff i.kernel p.size cvimgHeaderSize).toNat
    have hoffset : (offset dd p i : Int) =
        i.kernel.length + dd.written (diff i.kernel p.size cvimgHeaderSize).toNat := by
      rw [offset, roundFileSh_eq _ _ _ header_lt, List.length_append, List.length_replicate,
        Nat.cast_add]
    have hint : (p.size : Int) ∣ cvimgHeaderSize + offset dd p i := by
      rw [← Nat.cast_add]
      exact Int.natCast_dvd_natCast.mpr h
    have hsub := Int.dvd_sub hdvd hint
    have hblock := Int.le_of_dvd (by simp only [diff] at hdiff hwritten hoffset ⊢; omega) hsub
    simp only [diff] at hdiff hwritten hoffset
    omega

theorem propPack_eq (i : Inputs) (s : Temp) (hp : p.size = 64 * 1024) :
    (propPack i s).bind Temp.fw = some (firmware dd p i) := by
  have hpos : (0 : Int) < p.size := Int.natCast_pos.mpr p.pos
  obtain ⟨-, hlt, -⟩ := @targetSize_spec i.kernel.length p.size cvimgHeaderSize hpos
    (Int.natCast_nonneg _)
  have hdiff : diff i.kernel p.size cvimgHeaderSize ≤ maxRwCount := by
    rw [diff]
    simp only [hp, maxRwCount] at hlt ⊢
    omega
  rw [firmware, roundFileSh_eq_padded _ _ _ header_lt hdiff, hp, propPack]
  have hround : roundFile i.kernel (64 * 1024) 16 = some (padded i.kernel (64 * 1024) 16) :=
    roundFile_eq _ _ (by omega)
  rw [hround]
  rfl

theorem right_iff : Right dd p s e ↔ s.rf.getD [] = [] ∧ Fits p e.inputs := by
  constructor
  · intro h
    exact ⟨firmware_iff.mp h.firmware, (aligned_iff dd p e.inputs).mp h.aligned⟩
  · rintro ⟨hrf, haligned⟩
    have hfirmware := (@firmware_iff dd p s e).mpr hrf
    refine ⟨hfirmware, ⟨_, firmware_eq dd p e.inputs⟩, (aligned_iff dd p e.inputs).mpr haligned,
      fun hp s' => ?_⟩
    rw [hfirmware]
    exact propPack_eq e.inputs s' hp

/-! ### What earlier runs leave -/

/-- `cat` has appended something to `TMP_RF`. -/
def Invocation.Appends (e : Invocation) : Prop :=
  e.inputs.rootfs ≠ [] ∧ ∀ k n, e.stop = some (k, n) → 2 < k ∨ k = 2 ∧ 0 < n

/-- `TMP_RF` has been removed. -/
def Invocation.Removes (e : Invocation) : Prop :=
  ∀ k n, e.stop = some (k, n) → 6 < k ∨ k = 6 ∧ 1 < n

/-- What has been in `TMP_RF` and what has been appended to it has been removed since. -/
structure Fresh (s : Temp) (es : List Invocation) : Prop where
  start : s.rf.getD [] ≠ [] → ∃ e ∈ es, e.Removes
  later : ∀ pre e post, es = pre ++ e :: post → e.Appends → ¬e.Removes → ∃ e' ∈ post, e'.Removes

theorem rf_invoke_of_removes (h : e.Removes) : (invoke dd p s e).rf.getD [] = [] := by
  obtain ⟨inputs, _ | ⟨k, n⟩⟩ := e
  · rfl
  obtain hk | ⟨rfl, hn⟩ := h k n rfl
  · obtain rfl | hk := (show 7 ≤ k from hk).eq_or_lt
    · rfl
    · have hnone : commands[k]? = none := List.getElem?_eq_none hk
      rw [invoke]
      dsimp only
      rw [hnone]
      rfl
  · obtain ⟨n, rfl⟩ := Nat.exists_eq_add_of_le' (show 2 ≤ n from hn)
    rfl

theorem rf_invoke_of_not_removes (h : ¬e.Removes) :
    (invoke dd p s e).rf.getD [] = [] ↔ s.rf.getD [] = [] ∧ ¬e.Appends := by
  obtain ⟨inputs, _ | ⟨k, n⟩⟩ := e
  · exact absurd (fun _ _ h => nomatch h) h
  have hk : ¬(6 < k ∨ k = 6 ∧ 1 < n) := fun hk => h fun _ _ heq => by cases heq; exact hk
  have happends : Invocation.Appends ⟨inputs, some (k, n)⟩ ↔
      inputs.rootfs ≠ [] ∧ (2 < k ∨ k = 2 ∧ 0 < n) :=
    and_congr_right fun _ => ⟨fun h => h k n rfl, fun h _ _ heq => by cases heq; exact h⟩
  have hrf : (invoke dd p s ⟨inputs, some (k, n)⟩).rf.getD [] = s.rf.getD [] ++
      if 2 < k then inputs.rootfs else if k = 2 then inputs.rootfs.take n else [] := by
    obtain hk | rfl := (show k ≤ 6 by omega).lt_or_eq
    · obtain rfl | rfl | rfl | rfl | rfl | rfl : k = 0 ∨ k = 1 ∨ k = 2 ∨ k = 3 ∨ k = 4 ∨ k = 5 := by
        omega
      · exact (List.append_nil _).symm
      · exact (List.append_nil _).symm
      all_goals rfl
    · obtain rfl | rfl : n = 0 ∨ n = 1 := by omega
      all_goals rfl
  rw [happends, hrf, List.append_eq_nil_iff]
  refine and_congr_right fun _ => ?_
  split_ifs with hlt heq
  · simp [hlt]
  · simp [heq, Nat.pos_iff_ne_zero, List.take_eq_nil_iff, or_comm, Classical.or_iff_not_imp_left]
  · simp [hlt, heq]

theorem fresh_nil : Fresh s [] ↔ s.rf.getD [] = [] := by
  constructor
  · intro h
    by_contra hne
    obtain ⟨_, hmem, -⟩ := h.start hne
    cases hmem
  · exact fun h => ⟨fun hne => absurd h hne, fun pre e post heq => absurd heq.symm (by simp)⟩

theorem fresh_cons {es : List Invocation} : Fresh s (e :: es) ↔ Fresh (invoke dd p s e) es := by
  have hiff : ∀ {s es}, Fresh s es ↔ (s.rf.getD [] ≠ [] → ∃ e ∈ es, e.Removes) ∧
      ∀ pre e post, es = pre ++ e :: post → e.Appends → ¬e.Removes → ∃ e' ∈ post, e'.Removes :=
    ⟨fun h => ⟨h.start, h.later⟩, fun h => ⟨h.1, h.2⟩⟩
  rw [hiff, hiff, forall_split_cons, ← and_assoc]
  refine and_congr_left fun _ => ?_
  by_cases hremoves : e.Removes
  · refine iff_of_true ⟨fun _ => ⟨e, List.mem_cons_self, hremoves⟩, fun _ h => absurd hremoves h⟩ ?_
    exact fun hne => absurd (rf_invoke_of_removes hremoves) hne
  · rw [ne_eq, ne_eq, rf_invoke_of_not_removes hremoves]
    simp only [List.mem_cons, exists_eq_or_imp, hremoves, false_or]
    tauto

/-- `TMP_RF` is empty exactly when the earlier runs have left it so. -/
theorem rf_final_iff (es : List Invocation) :
    (final (invoke dd p) s es).rf.getD [] = [] ↔ Fresh s es := by
  induction es generalizing s with
  | nil => exact fresh_nil.symm
  | cons e es ih => exact ih.trans fresh_cons.symm

/-- In a run of the target again and again the images are right exactly when every image is
assembled after the root filesystems of earlier runs have been removed, and the padding can be
kept. -/
theorem along_right_iff (dd : Dd) (p : Block) (s : Temp) (es : List Invocation) :
    Along (invoke dd p) (fun s e => e.Assembles → Right dd p s e) s es ↔
      ∀ pre e post, es = pre ++ e :: post → e.Assembles → Fresh s pre ∧ Fits p e.inputs := by
  simp only [along_iff_forall, right_iff, rf_final_iff]

def flash : Block := ⟨64 * 1024, by decide, by decide⟩

/-- `cvimg` fails, and the image is made again. -/
def retried : List Invocation :=
  [⟨⟨[], [1]⟩, some (5, 0)⟩, ⟨⟨[], [1]⟩, none⟩]

theorem not_along_right :
    ¬ ∀ (p : Block) (s : Temp) (es : List Invocation),
      Along (invoke ddAll p) (fun s e => e.Assembles → Right ddAll p s e) s es := by
  intro h
  obtain ⟨-, hsecond, -⟩ := h flash ⟨none, none, none⟩ retried
  have hrf := firmware_iff.mp (hsecond fun _ _ hstop => nomatch hstop).firmware
  exact List.cons_ne_nil _ _ hrf

end Dir842.RlxPack
