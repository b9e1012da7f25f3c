import Dir842.Lib.Codec

/-!
# `stream.c`

A `struct stream` that is written is the list of its bytes, one that is read the list of those not
read yet. Where the source asserts (`STREAM_BOUND_WARN`) there is no result.
-/

namespace Dir842.Quagga
open Codec

/-- `ZEBRA_MAX_PACKET_SIZ`, the size of both streams. -/
def STREAM_SIZE : Nat := 4096

def streamPutc (c : UInt8) : Put := do
  if (← get).length + 1 ≤ STREAM_SIZE then modify (· ++ [c]) else failure

def streamPutw (w : UInt16) : Put := do
  if (← get).length + 2 ≤ STREAM_SIZE then modify (· ++ [(w >>> 8).toUInt8, w.toUInt8])
  else failure

def streamPutl (l : UInt32) : Put := do
  if (← get).length + 4 ≤ STREAM_SIZE then
    modify (· ++ [(l >>> 24).toUInt8, (l >>> 16).toUInt8, (l >>> 8).toUInt8, l.toUInt8])
  else failure

/-- `stream_put_in_addr`; the address is its bytes in network order. -/
def streamPutInAddr (addr : List UInt8) : Put := do
  if (← get).length + addr.length ≤ STREAM_SIZE then modify (· ++ addr) else failure

/-- `stream_write` truncates what does not fit (`CHECK_SIZE`). -/
def streamWrite (bytes : List UInt8) : Put :=
  modify fun s => s ++ bytes.take (STREAM_SIZE - s.length)

/-- `stream_putw_at (s, 0, w)` -/
def streamPutwAtStart (w : UInt16) : Put := do
  if 2 ≤ (← get).length then modify fun s => [(w >>> 8).toUInt8, w.toUInt8] ++ s.drop 2
  else failure

def streamGetc : Get UInt8 := do
  match ← get with
  | c :: s => set s; return c
  | [] => failure

def streamGetw : Get UInt16 := do
  match ← get with
  | a :: b :: s => set s; return a.toUInt16 <<< 8 ||| b.toUInt16
  | _ => failure

def streamGetl : Get UInt32 := do
  match ← get with
  | a :: b :: c :: d :: s =>
    set s
    return a.toUInt32 <<< 24 ||| b.toUInt32 <<< 16 ||| c.toUInt32 <<< 8 ||| d.toUInt32
  | _ => failure

/-- `stream_get` of `size` bytes. -/
def streamGet (size : Nat) : Get (List UInt8) := takeBytes size

def streamForwardGetp (size : Nat) : Get Unit := do
  let s ← get
  if size ≤ s.length then set (s.drop size) else failure

/-! ### What is put is got -/

def bytesw (w : UInt16) : List UInt8 := [(w >>> 8).toUInt8, w.toUInt8]

def bytesl (l : UInt32) : List UInt8 :=
  [(l >>> 24).toUInt8, (l >>> 16).toUInt8, (l >>> 8).toUInt8, l.toUInt8]

theorem writes_putc (c : UInt8) : Writes STREAM_SIZE (streamPutc c) [c] := by
  intro s hs
  have hs : s.length + 1 ≤ STREAM_SIZE := hs
  change (if s.length + 1 ≤ STREAM_SIZE then (modify (· ++ [c]) : Put) else failure).run s = _
  rw [if_pos hs]
  rfl

theorem writes_putw (w : UInt16) : Writes STREAM_SIZE (streamPutw w) (bytesw w) := by
  intro s hs
  have hs : s.length + 2 ≤ STREAM_SIZE := hs
  simp [streamPutw, bytesw, hs]

theorem writes_putl (l : UInt32) : Writes STREAM_SIZE (streamPutl l) (bytesl l) := by
  intro s hs
  have hs : s.length + 4 ≤ STREAM_SIZE := hs
  simp [streamPutl, bytesl, hs]

theorem writes_putInAddr (addr : List UInt8) : Writes STREAM_SIZE (streamPutInAddr addr) addr := by
  intro s hs
  simp [streamPutInAddr, hs]

theorem writes_write (bytes : List UInt8) : Writes STREAM_SIZE (streamWrite bytes) bytes := by
  intro s hs
  simp [streamWrite, List.take_of_length_le (show bytes.length ≤ STREAM_SIZE - s.length by omega)]

theorem run_putwAtStart (w : UInt16) (a b : UInt8) (s : List UInt8) :
    (streamPutwAtStart w).run (a :: b :: s) = some ((), bytesw w ++ s) := by
  simp [streamPutwAtStart, bytesw]

theorem reads_getc (c : UInt8) : Reads streamGetc [c] c := by
  intro rest
  simp [streamGetc]

/-- The byte of `l` at bit `k`, put back there. -/
theorem getLsbD_byte {n : Nat} (l : BitVec n) (k i : Nat) (hi : i < n) :
    ((((l >>> k).setWidth 8).setWidth n) <<< k).getLsbD i =
      (decide (k ≤ i ∧ i < k + 8) && l.getLsbD i) := by
  simp only [BitVec.getLsbD_shiftLeft, BitVec.getLsbD_setWidth, BitVec.getLsbD_ushiftRight, hi,
    decide_true, Bool.true_and]
  by_cases hk : k ≤ i
  · rw [Nat.add_sub_cancel' hk]
    by_cases hk' : i < k + 8
    · simp [hk, hk', show ¬ i < k by omega, show i - k < n by omega, show i - k < 8 by omega]
    · simp [hk', show ¬ i - k < 8 by omega]
  · simp [hk, show i < k by omega]

theorem word_bytes (w : UInt16) :
    (w >>> 8).toUInt8.toUInt16 <<< 8 ||| w.toUInt8.toUInt16 = w := by
  rw [← UInt16.toBitVec_inj]
  refine BitVec.eq_of_getLsbD_eq fun i hi => ?_
  have h0 := getLsbD_byte w.toBitVec 0 i hi
  have h8 := getLsbD_byte w.toBitVec 8 i hi
  simp only [BitVec.shiftLeft_zero, BitVec.ushiftRight_zero] at h0
  show ((BitVec.setWidth 16 (BitVec.setWidth 8 (w.toBitVec >>> 8)) <<< 8 |||
    BitVec.setWidth 16 (BitVec.setWidth 8 w.toBitVec)).getLsbD i) = _
  rw [BitVec.getLsbD_or, h0, h8]
  cases w.toBitVec.getLsbD i <;> simp
  omega

theorem long_bytes (l : UInt32) :
    (l >>> 24).toUInt8.toUInt32 <<< 24 ||| (l >>> 16).toUInt8.toUInt32 <<< 16 |||
      (l >>> 8).toUInt8.toUInt32 <<< 8 ||| l.toUInt8.toUInt32 = l := by
  rw [← UInt32.toBitVec_inj]
  refine BitVec.eq_of_getLsbD_eq fun i hi => ?_
  have h0 := getLsbD_byte l.toBitVec 0 i hi
  have h8 := getLsbD_byte l.toBitVec 8 i hi
  have h16 := getLsbD_byte l.toBitVec 16 i hi
  have h24 := getLsbD_byte l.toBitVec 24 i hi
  simp only [BitVec.shiftLeft_zero, BitVec.ushiftRight_zero] at h0
  show ((BitVec.setWidth 32 (BitVec.setWidth 8 (l.toBitVec >>> 24)) <<< 24 |||
    BitVec.setWidth 32 (BitVec.setWidth 8 (l.toBitVec >>> 16)) <<< 16 |||
    BitVec.setWidth 32 (BitVec.setWidth 8 (l.toBitVec >>> 8)) <<< 8 |||
    BitVec.setWidth 32 (BitVec.setWidth 8 l.toBitVec)).getLsbD i) = _
  rw [BitVec.getLsbD_or, BitVec.getLsbD_or, BitVec.getLsbD_or, h0, h8, h16, h24]
  cases l.toBitVec.getLsbD i <;> simp
  omega

theorem reads_getw (w : UInt16) : Reads streamGetw (bytesw w) w := by
  intro rest
  show some (_, rest) = _
  rw [word_bytes]

theorem reads_getl (l : UInt32) : Reads streamGetl (bytesl l) l := by
  intro rest
  show some (_, rest) = _
  rw [long_bytes]

theorem reads_get {size : Nat} {bytes : List UInt8} (h : bytes.length = size) :
    Reads (streamGet size) bytes bytes := Reads.takeBytes h

theorem consumes_getc : Consumes streamGetc 1 := by
  intro s c rest h
  match s with
  | [] => exact absurd h (by simp [streamGetc])
  | a :: s =>
    obtain ⟨rfl, rfl⟩ := Prod.mk.inj (Option.some.inj h)
    simp [Nat.add_comm]

theorem consumes_getl : Consumes streamGetl 4 := by
  intro s l rest h
  match s with
  | [] | [_] | [_, _] | [_, _, _] => exact absurd h (by simp [streamGetl])
  | a :: b :: c :: d :: s =>
    obtain ⟨rfl, rfl⟩ := Prod.mk.inj (Option.some.inj h)
    simp only [List.length_cons]
    omega

end Dir842.Quagga
