import Dir842.Lib.Bytes
import Dir842.Lib.Codec

/-!
# Cross-compiled bytecode (`ldump.c`, `luac.c`)

`luac -c` dumps for a target of another byte order and other sizes: every item passes through
`CrossDumpVector`, which is modelled on the bytes of the host's memory. The loader of the target is
the stock `lundump.c`.
-/

namespace Dir842.Lua
open Bytes Codec

/-- The C types of the machine that runs `luac`, `long long` being 8 bytes; `sizeT`, `integer` and
`number` are the sizes of `size_t`, `lua_Integer` and `lua_Number`. -/
structure Host where
  endian : Endian
  short : Nat
  int : Nat
  long : Nat
  sizeT : Nat
  integer : Nat
  number : Nat
  two_le_short : 2 ≤ short
  short_le_int : short ≤ int
  int_le_long : int ≤ long
  four_le_long : 4 ≤ long
  long_le : long ≤ 8
  sizeT_mem : sizeT ∈ [short, int, long, 8]
  integer_mem : integer ∈ [int, long, 8]
  number_le : number ≤ 8

namespace Host

/-- The sizes that `RawToInt` and `RawFromInt` know, apart from `char`. -/
def sizes (h : Host) : List Nat := [8, h.long, h.int, h.short]

/-- `Instruction` is `unsigned int`, or `unsigned long` where `int` is too small. -/
def instruction (h : Host) : Nat := if 4 ≤ h.int then h.int else h.long

end Host

inductive Sign
  | unsigned
  | signed
deriving DecidableEq

/-- `struct cc_setup`; zero and `none` stand for what is native. -/
structure CcSetup where
  endian : Option Endian := none
  intSize : Nat := 0
  sizeSize : Nat := 0
  codeSize : Nat := 0
  integerSize : Nat := 0
  numberSize : Nat := 0
deriving DecidableEq

/-- `mode[i] - '0'`; what is below `'0'` is rejected like 0. -/
def digit (c : Char) : Nat := c.toNat - '0'.toNat

/-- The argument of `-c` in `doargs`; every `usage` exits. -/
def doargsCross (mode : List Char) : Option CcSetup :=
  match mode with
  | [e, d, s, c, i, n] =>
    let endian := if e = 'B' then some Endian.big else if e = 'L' then some .little else none
    let admitted (size : Nat) : Bool := size = 4 ∨ size = 8
    if endian.isSome ∧ [d, s, c, i, n].all (admitted <| digit ·) then
      some ⟨endian, digit d, digit s, digit c, digit i, digit n⟩
    else none
  | _ => none

/-! ### `CrossDumpVector` -/

/-- The member of the union that `RawToInt` and `RawFromInt` take for a size. -/
def Host.member (h : Host) (size : Nat) : Nat :=
  if size = 8 then 8
  else if size = h.long then h.long
  else if size = h.int then h.int
  else if size = h.short then h.short
  else 1

def rawToInt (h : Host) (raw : List UInt8) (size : Nat) : Sign → Int
  | .signed => Bytes.signed h.endian (raw.take (h.member size))
  | .unsigned => Bytes.unsigned h.endian (raw.take (h.member size))

def rawFromInt (h : Host) (val : Int) (raw : List UInt8) (size : Nat) : List UInt8 :=
  encode h.endian (h.member size) val ++ raw.drop (h.member size)

/-- One turn of the loop under `need_swap`. -/
def swapByte (size : Nat) (raw : List UInt8) (b : Nat) : List UInt8 :=
  let c := raw.getD b 0
  (raw.set b (raw.getD (size - b - 1) 0)).set (size - b - 1) c

def swapRaw (raw : List UInt8) (size : Nat) : List UInt8 :=
  (List.range (size / 2)).foldl (swapByte size) raw

/-- One turn of the slow path. -/
def crossDumpItem (h : Host) (targetEndian : Endian) (membSize targetMembSize : Nat) (sign : Sign)
    (cur : List UInt8) : List UInt8 :=
  let raw := cur ++ List.replicate (8 - membSize) 0
  let raw := if targetMembSize ≠ membSize then
      rawFromInt h (rawToInt h raw membSize sign) raw targetMembSize
    else raw
  let raw := if targetEndian ≠ h.endian then swapRaw raw targetMembSize else raw
  raw.take targetMembSize

/-- `v` is the memory of the items. -/
def crossDumpVector (h : Host) (c : CcSetup) (v : List (List UInt8)) (membSize targetMembSize : Nat)
    (sign : Sign) : List UInt8 :=
  let targetMembSize := if targetMembSize = 0 then membSize else targetMembSize
  let targetEndian := c.endian.getD h.endian
  if targetEndian ≠ h.endian ∨ targetMembSize ≠ membSize then
    v.flatMap (crossDumpItem h targetEndian membSize targetMembSize sign)
  else v.flatten

section dump
variable (h : Host) (c : CcSetup)

def dumpByte (y : Nat) : List UInt8 := crossDumpVector h c [[.ofNat y]] 1 1 .unsigned

def dumpInt (x : Int) : List UInt8 :=
  crossDumpVector h c [encode h.endian h.int x] h.int c.intSize .signed

def dumpSize (x : Nat) : List UInt8 :=
  crossDumpVector h c [encode h.endian h.sizeT x] h.sizeT c.sizeSize .unsigned

/-- A number is its bits; conversions between floating-point formats are left out. -/
def dumpNumber (x : Nat) : Option (List UInt8) :=
  if c.numberSize ≠ 0 ∧ c.numberSize ≠ h.number then none
  else some (crossDumpVector h c [encode h.endian h.number x] h.number h.number .unsigned)

def dumpInteger (x : Int) : List UInt8 :=
  crossDumpVector h c [encode h.endian h.integer x] h.integer c.integerSize .signed

/-- `none` is the null pointer. -/
def dumpString : Option (List UInt8) → List UInt8
  | none => dumpByte h c 0
  | some s =>
    let size := s.length + 1
    (if size < 0xFF then dumpByte h c size else dumpByte h c 0xFF ++ dumpSize h c size) ++
      crossDumpVector h c (s.map ([·])) 1 1 .unsigned

def dumpCode (code : List Nat) : List UInt8 :=
  dumpInt h c code.length ++
    crossDumpVector h c (code.map fun (i : Nat) => encode h.endian h.instruction i) h.instruction
      c.codeSize .signed

def dumpLineinfo (lineinfo : List Int) : List UInt8 :=
  dumpInt h c lineinfo.length ++
    crossDumpVector h c (lineinfo.map (encode h.endian h.int)) h.int c.intSize .signed

/-- The sizes that `DumpHeader` announces: of `int`, `size_t`, `Instruction`, `lua_Integer` and
`lua_Number`. -/
def headerSizes : List Nat :=
  let orElse (a b : Nat) : Nat := if a = 0 then b else a
  [orElse c.intSize h.int, orElse c.sizeSize h.sizeT, orElse c.codeSize h.instruction,
    orElse c.integerSize h.integer, orElse c.numberSize h.number]

def dumpHeaderSizes : List UInt8 := (headerSizes h c).flatMap (dumpByte h c)

end dump

/-! ### The loader of the target -/

section load
variable (e : Endian) (c : CcSetup)

def loadByte : Get Nat := do return (Bytes.unsigned e (← takeBytes 1)).toNat

def loadInt : Get Int := do return Bytes.signed e (← takeBytes c.intSize)

def loadSize : Get Nat := do return (Bytes.unsigned e (← takeBytes c.sizeSize)).toNat

def loadNumber : Get Nat := do return (Bytes.unsigned e (← takeBytes c.numberSize)).toNat

def loadInteger : Get Int := do return Bytes.signed e (← takeBytes c.integerSize)

/-- Short and long strings are loaded alike. -/
def loadString : Get (Option (List UInt8)) := do
  let size ← loadByte e
  let size ← if size = 0xFF then loadSize e c else pure size
  if size = 0 then return none else return some (← takeBytes (size - 1))

/-- `LoadVector` into an array of `n` items. -/
def loadVector {α : Type} (item : Get α) : Nat → Get (List α)
  | 0 => return []
  | n + 1 => do
    let a ← item
    return a :: (← loadVector item n)

def loadCode : Get (List Nat) := do
  let n ← loadInt e c
  loadVector (do return (Bytes.unsigned e (← takeBytes c.codeSize)).toNat) n.toNat

def loadLineinfo : Get (List Int) := do
  let n ← loadInt e c
  loadVector (loadInt e c) n.toNat

end load

/-! ### What the target reads -/

/-- Everything that fits both sides is read as it was, and every item has the announced width. -/
structure Decodes (h : Host) (c : CcSetup) (e : Endian) : Prop where
  int : ∀ x, FitsSigned h.int x → FitsSigned c.intSize x → Reads (loadInt e c) (dumpInt h c x) x
  size : ∀ n : Nat, FitsUnsigned h.sizeT n → FitsUnsigned c.sizeSize n →
    Reads (loadSize e c) (dumpSize h c n) n
  string : ∀ s : Option (List UInt8),
    (∀ bs ∈ s, FitsUnsigned h.sizeT (bs.length + 1) ∧ FitsUnsigned c.sizeSize (bs.length + 1)) →
      Reads (loadString e c) (dumpString h c s) s
  integer : ∀ x, FitsSigned h.integer x → FitsSigned c.integerSize x →
    Reads (loadInteger e c) (dumpInteger h c x) x
  number : c.numberSize = h.number → ∀ n : Nat, FitsUnsigned h.number n →
    ∃ bs, dumpNumber h c n = some bs ∧ Reads (loadNumber e c) bs n
  code : ∀ code : List Nat, FitsSigned h.int code.length → FitsSigned c.intSize code.length →
    ∃ code', Reads (loadCode e c) (dumpCode h c code) code' ∧
      code'.map (· % 2 ^ 32) = code.map (· % 2 ^ 32)
  lineinfo : ∀ lineinfo : List Int,
    FitsSigned h.int lineinfo.length → FitsSigned c.intSize lineinfo.length →
      (∀ x ∈ lineinfo, FitsSigned h.int x ∧ FitsSigned c.intSize x) →
        Reads (loadLineinfo e c) (dumpLineinfo h c lineinfo) lineinfo
  announced : Reads (loadVector (loadByte e) 5) (dumpHeaderSizes h c)
    [c.intSize, c.sizeSize, c.codeSize, c.integerSize, c.numberSize]
  intWidth : ∀ x, (dumpInt h c x).length = c.intSize
  sizeWidth : ∀ n, (dumpSize h c n).length = c.sizeSize
  integerWidth : ∀ x, (dumpInteger h c x).length = c.integerSize
  numberWidth : ∀ n bs, dumpNumber h c n = some bs → bs.length = c.numberSize

/-! ### The conversion of one item -/

theorem length_swapBytes (size : Nat) (raw : List UInt8) (bs : List Nat) :
    (bs.foldl (swapByte size) raw).length = raw.length := by
  induction bs generalizing raw with
  | nil => rfl
  | cons b bs ih => simp [ih, swapByte]

/-- After `k` turns of the loop the outer `k` bytes of both ends have changed places. -/
theorem getElem?_swapBytes {raw : List UInt8} {size k : Nat} (hsize : size ≤ raw.length)
    (hk : 2 * k ≤ size) (j : Nat) :
    ((List.range k).foldl (swapByte size) raw)[j]? =
      if j < k ∨ size - k ≤ j ∧ j < size then raw[size - j - 1]? else raw[j]? := by
  induction k generalizing j with
  | zero => simp
  | succ k ih =>
    have ih := ih (by omega)
    rw [List.range_succ, List.foldl_append, List.foldl_cons, List.foldl_nil, swapByte]
    set raw' := (List.range k).foldl (swapByte size) raw
    have hlen : raw'.length = raw.length := length_swapBytes ..
    have hb : raw'.getD k 0 = raw.getD k 0 := by
      rw [List.getD_eq_getElem?_getD, List.getD_eq_getElem?_getD, ih, if_neg (by omega)]
    have hs : raw'.getD (size - k - 1) 0 = raw.getD (size - k - 1) 0 := by
      rw [List.getD_eq_getElem?_getD, List.getD_eq_getElem?_getD, ih, if_neg (by omega)]
    simp only [List.getElem?_set, List.length_set, hlen, hb, hs, ih]
    grind

theorem take_swapRaw {raw : List UInt8} {size : Nat} (h : size ≤ raw.length) :
    (swapRaw raw size).take size = (raw.take size).reverse := by
  refine List.ext_getElem? fun j => ?_
  rw [swapRaw, List.getElem?_take, getElem?_swapBytes h (by omega)]
  by_cases hj : j < size
  · have hrev : (raw.take size).reverse[j]? = raw[size - j - 1]? := by
      rw [List.getElem?_reverse (by rw [List.length_take]; omega), List.length_take,
        Nat.min_eq_left h, List.getElem?_take, if_pos (by omega)]
      congr 1
      omega
    rw [if_pos hj, hrev]
    split
    · rfl
    · -- the byte in the middle of an odd number
      congr 1
      omega
  · rw [if_neg hj, List.getElem?_eq_none (by simp; omega)]

namespace Host
variable {h : Host} {size : Nat}

theorem member_of_mem (hs : size ∈ h.sizes) : h.member size = size := by
  simp only [sizes, List.mem_cons, List.not_mem_nil, or_false] at hs
  unfold member
  split <;> try split <;> try split <;> try split
  all_goals omega

theorem le_eight_of_mem (hs : size ∈ h.sizes) : 1 ≤ size ∧ size ≤ 8 := by
  have := h.two_le_short
  have := h.short_le_int
  have := h.int_le_long
  have := h.long_le
  simp only [sizes, List.mem_cons, List.not_mem_nil, or_false] at hs
  omega

theorem int_mem (h : Host) : h.int ∈ h.sizes := by simp [sizes]

theorem sizeT_mem_sizes (h : Host) : h.sizeT ∈ h.sizes := by
  have := h.sizeT_mem
  simp only [sizes, List.mem_cons, List.not_mem_nil, or_false] at this ⊢
  omega

theorem integer_mem_sizes (h : Host) : h.integer ∈ h.sizes := by
  have := h.integer_mem
  simp only [sizes, List.mem_cons, List.not_mem_nil, or_false] at this ⊢
  omega

theorem instruction_mem (h : Host) : h.instruction ∈ h.sizes := by
  unfold instruction
  split <;> simp [sizes]

end Host

/-- The host can write integers of the target's width: it need not convert, it has a type of that
width, or it is little-endian and the fallback to `char` changes nothing. -/
def Convertible (h : Host) (sign : Sign) (membSize targetMembSize : Nat) : Prop :=
  targetMembSize = membSize ∨ targetMembSize ∈ h.sizes ∨
    h.endian = .little ∧ (targetMembSize ≤ membSize ∨ sign = .unsigned)

instance (h : Host) (sign : Sign) (m t : Nat) : Decidable (Convertible h sign m t) := by
  unfold Convertible
  infer_instance

def Fits : Sign → Nat → Int → Prop
  | .signed => FitsSigned
  | .unsigned => FitsUnsigned

theorem rawToInt_encode {h : Host} {m : Nat} {sign : Sign} {x : Int} (hm : m ∈ h.sizes)
    (hx : Fits sign m x) (pad : List UInt8) :
    rawToInt h (encode h.endian m x ++ pad) m sign = x := by
  have htake : (encode h.endian m x ++ pad).take (h.member m) = encode h.endian m x := by
    rw [Host.member_of_mem hm, List.take_left' (length_encode ..)]
  cases sign with
  | signed => rw [rawToInt, htake, signed_encode_of_fits hx]
  | unsigned => rw [rawToInt, htake, unsigned_encode_of_fits hx]

/-- The converted value is at the front of the union. -/
theorem take_rawFromInt {h : Host} {m t : Nat} {sign : Sign} {x : Int} (hm : m ∈ h.sizes)
    (ht : t ≤ 8) (hx : Fits sign m x) (hconv : Convertible h sign m t) (hne : t ≠ m) :
    (rawFromInt h x (encode h.endian m x ++ List.replicate (8 - m) 0) t).take t =
      encode h.endian t x := by
  by_cases hts : t ∈ h.sizes
  · rw [rawFromInt, Host.member_of_mem hts, List.take_left' (length_encode ..)]
  obtain ⟨hlittle, hnarrow⟩ := (hconv.resolve_left hne).resolve_left hts
  have hmle := Host.le_eight_of_mem hm
  have hmember : h.member t = 1 := by
    simp only [Host.sizes, List.mem_cons, List.not_mem_nil, or_false, not_or] at hts
    simp [Host.member, hts]
  -- writing the lowest byte again leaves the union as it is
  have hraw : rawFromInt h x (encode h.endian m x ++ List.replicate (8 - m) 0) t =
      encode .little m x ++ List.replicate (8 - m) 0 := by
    have hone : (encode .little m x ++ List.replicate (8 - m) (0 : UInt8)).take 1 =
        encode .little 1 x := by
      rw [List.take_append_of_le_length (by rw [length_encode]; omega), take_encode_little hmle.1]
    rw [rawFromInt, hmember, hlittle, ← hone, List.take_append_drop]
  rw [hraw, hlittle]
  by_cases htm : t ≤ m
  · rw [List.take_append_of_le_length (by rwa [length_encode]), take_encode_little htm]
  · obtain rfl := hnarrow.resolve_left htm
    rw [encode_little_append_zeros hx, Nat.add_sub_cancel' hmle.2, take_encode_little ht]

theorem length_rawFromInt {h : Host} {x : Int} {raw : List UInt8} (hraw : raw.length = 8) (t : Nat) :
    (rawFromInt h x raw t).length = 8 := by
  have hmember : h.member t ≤ 8 := by
    have := h.short_le_int
    have := h.int_le_long
    have := h.long_le
    unfold Host.member
    split <;> try split <;> try split <;> try split
    all_goals omega
  rw [rawFromInt, List.length_append, length_encode, List.length_drop]
  omega

/-- The front of the union in the byte order of the target. -/
theorem take_swap {h : Host} {e : Endian} {raw : List UInt8} {t : Nat} {x : Int}
    (hraw : raw.length = 8) (ht : t ≤ 8) (htake : raw.take t = encode h.endian t x) :
    (if e ≠ h.endian then swapRaw raw t else raw).take t = encode e t x := by
  by_cases he : e = h.endian
  · rw [if_neg (not_not.mpr he), htake, he]
  · rw [if_pos he, take_swapRaw (by omega), htake, reverse_encode (Ne.symm he)]

/-- The bytes of an item in the byte order and the width of the target. -/
theorem crossDumpItem_encode {h : Host} (e : Endian) {m t : Nat} {sign : Sign} {x : Int}
    (hmle : m ≤ 8) (ht : t ≤ 8)
    (hx : t = m ∨ m ∈ h.sizes ∧ Fits sign m x ∧ Convertible h sign m t) :
    crossDumpItem h e m t sign (encode h.endian m x) = encode e t x := by
  have hlen : (encode h.endian m x ++ List.replicate (8 - m) (0 : UInt8)).length = 8 := by
    rw [List.length_append, length_encode, List.length_replicate]
    omega
  by_cases hne : t = m
  · subst hne
    simp only [crossDumpItem, ne_eq, not_true_eq_false, if_false]
    exact take_swap hlen ht (List.take_left' (length_encode ..))
  · obtain ⟨hm, hfits, hconv⟩ := hx.resolve_left hne
    simp only [crossDumpItem, ne_eq, hne, not_false_eq_true, if_true, rawToInt_encode hm hfits]
    exact take_swap (length_rawFromInt hlen t) ht (take_rawFromInt hm ht hfits hconv hne)

theorem crossDumpItem_byte (h : Host) (e : Endian) (b : UInt8) :
    crossDumpItem h e 1 1 .unsigned [b] = [b] := by
  simp [crossDumpItem, swapRaw]

section vector
variable {h : Host} {c : CcSetup} {e : Endian}

theorem crossDumpVector_encode (he : c.endian = some e) {m t : Nat} {sign : Sign} {xs : List Int}
    (hmle : m ≤ 8) (ht : t ≠ 0 ∧ t ≤ 8)
    (hx : ∀ x ∈ xs, t = m ∨ m ∈ h.sizes ∧ Fits sign m x ∧ Convertible h sign m t) :
    crossDumpVector h c (xs.map (encode h.endian m)) m t sign = xs.flatMap (encode e t) := by
  simp only [crossDumpVector, he, Option.getD_some, if_neg ht.1]
  by_cases hn : e ≠ h.endian ∨ t ≠ m
  · rw [if_pos hn, List.flatMap_map]
    exact List.flatMap_congr fun x hxs => crossDumpItem_encode e hmle ht.2 (hx x hxs)
  · rw [if_neg hn]
    obtain ⟨hendian, hsize⟩ := not_or.mp hn
    obtain rfl := not_not.mp hendian
    obtain rfl := not_not.mp hsize
    rw [List.flatMap_def]

theorem crossDumpVector_bytes (h : Host) (c : CcSetup) (bs : List UInt8) :
    crossDumpVector h c (bs.map ([·])) 1 1 .unsigned = bs := by
  simp only [crossDumpVector, one_ne_zero, if_false]
  split
  · rw [List.flatMap_map]
    exact (List.flatMap_congr fun b _ => crossDumpItem_byte h _ b).trans (List.flatMap_singleton' bs)
  · rw [← List.flatMap_def]
    exact List.flatMap_singleton' bs

theorem dumpByte_eq (h : Host) (c : CcSetup) (y : Nat) : dumpByte h c y = [.ofNat y] :=
  crossDumpVector_bytes h c [.ofNat y]

/-- The width of what is dumped does not depend on the value. -/
theorem length_crossDumpVector_singleton (h : Host) (c : CcSetup) {m t : Nat} (sign : Sign) (x : Int)
    (hmle : m ≤ 8) (ht : t ≠ 0 ∧ t ≤ 8) :
    (crossDumpVector h c [encode h.endian m x] m t sign).length = t := by
  have hlen : (encode h.endian m x ++ List.replicate (8 - m) (0 : UInt8)).length = 8 := by
    rw [List.length_append, length_encode, List.length_replicate]
    omega
  have hswap : ∀ (e : Endian) (raw : List UInt8), raw.length = 8 →
      ((if e ≠ h.endian then swapRaw raw t else raw).take t).length = t := by
    intro e raw hraw
    split <;> simp [swapRaw, length_swapBytes, hraw, ht.2]
  simp only [crossDumpVector, if_neg ht.1]
  by_cases hn : c.endian.getD h.endian ≠ h.endian ∨ t ≠ m
  · rw [if_pos hn, List.flatMap_singleton, crossDumpItem]
    by_cases hne : t = m
    · rw [if_neg (not_not.mpr hne)]
      exact hswap _ _ hlen
    · rw [if_pos hne]
      exact hswap _ _ (length_rawFromInt hlen t)
  · rw [if_neg hn, List.flatten_singleton, length_encode, not_not.mp (not_or.mp hn).2]

end vector

/-! ### Reading it back -/

theorem reads_loadVector {α β : Type} {item : Get β} {enc : α → List UInt8} {val : α → β} {xs : List α}
    (h : ∀ x ∈ xs, Reads item (enc x) (val x)) :
    Reads (loadVector item xs.length) (xs.flatMap enc) (xs.map val) := by
  induction xs with
  | nil => exact Reads.pure []
  | cons x xs ih =>
    exact (h x (List.mem_cons_self ..)).bind
      (ih fun y hy => h y (List.mem_cons_of_mem _ hy)).bind_pure

section decode
variable {h : Host} {c : CcSetup} {e : Endian}

theorem reads_signed {k : Nat} {x : Int} (hx : FitsSigned k x) (e : Endian) :
    Reads (do return Bytes.signed e (← takeBytes k)) (encode e k x) x := by
  have hread : Reads (do return Bytes.signed e (← takeBytes k)) (encode e k x)
      (Bytes.signed e (encode e k x)) := (Reads.takeBytes (length_encode e k x)).bind_pure
  rwa [signed_encode_of_fits hx] at hread

theorem reads_unsigned (e : Endian) (k : Nat) (x : Int) :
    Reads (do return (Bytes.unsigned e (← takeBytes k)).toNat) (encode e k x)
      (x % 256 ^ k).toNat := by
  have hread : Reads (do return (Bytes.unsigned e (← takeBytes k)).toNat) (encode e k x)
      (Bytes.unsigned e (encode e k x)).toNat := (Reads.takeBytes (length_encode e k x)).bind_pure
  rwa [unsigned_encode] at hread

theorem reads_unsigned_of_fits {k n : Nat} (hn : FitsUnsigned k n) (e : Endian) :
    Reads (do return (Bytes.unsigned e (← takeBytes k)).toNat) (encode e k n) n := by
  have hread := reads_unsigned e k n
  rwa [Int.emod_eq_of_lt hn.1 hn.2, Int.toNat_natCast] at hread

theorem reads_loadByte {y : Nat} (hy : y < 256) (h : Host) (c : CcSetup) (e : Endian) :
    Reads (loadByte e) (dumpByte h c y) y := by
  rw [dumpByte_eq]
  have hbyte : encode e 1 y = [.ofNat y] := by
    have hmod : ((y : Int) % 256 ^ 1).toNat = y := by omega
    rw [encode, hmod]
    cases e <;> rfl
  have hfits : FitsUnsigned 1 (y : Int) := ⟨by omega, by omega⟩
  exact hbyte ▸ reads_unsigned_of_fits hfits e

theorem doargsCross_admitted {mode : List Char} (hc : doargsCross mode = some c) :
    (∃ e, c.endian = some e) ∧
      ∀ s ∈ [c.intSize, c.sizeSize, c.codeSize, c.integerSize, c.numberSize], s = 4 ∨ s = 8 := by
  unfold doargsCross at hc
  split at hc
  · simp only [Option.ite_none_right_eq_some] at hc
    obtain ⟨⟨hendian, hsizes⟩, hc⟩ := hc
    obtain rfl := Option.some.inj hc
    refine ⟨Option.isSome_iff_exists.mp hendian, ?_⟩
    simpa [List.all_eq_true] using hsizes
  · exact absurd hc (by simp)

/-- The host can write the items in the widths of the target. -/
structure Supported (h : Host) (c : CcSetup) : Prop where
  int : Convertible h .signed h.int c.intSize
  size : Convertible h .unsigned h.sizeT c.sizeSize
  code : Convertible h .signed h.instruction c.codeSize
  integer : Convertible h .signed h.integer c.integerSize

/-- A setup for a target of byte order `e`, with sizes that are given and fit the union. -/
structure Target (c : CcSetup) (e : Endian) : Prop where
  endian : c.endian = some e
  size : ∀ s ∈ [c.intSize, c.sizeSize, c.codeSize, c.integerSize, c.numberSize], 4 ≤ s ∧ s ≤ 8

theorem target_of_doargsCross {mode : List Char} (hc : doargsCross mode = some c)
    (he : c.endian = some e) : Target c e := by
  refine ⟨he, fun s hs => ?_⟩
  have := (doargsCross_admitted hc).2 s hs
  omega

namespace Target

theorem singleton (ht : Target c e) {m t : Nat} {sign : Sign} {x : Int} (hm : m ∈ h.sizes)
    (hts : t ∈ [c.intSize, c.sizeSize, c.codeSize, c.integerSize, c.numberSize])
    (hconv : Convertible h sign m t) (hx : Fits sign m x) :
    crossDumpVector h c [encode h.endian m x] m t sign = encode e t x := by
  have hsize := ht.size t hts
  have hitem : ∀ y ∈ [x], t = m ∨ m ∈ h.sizes ∧ Fits sign m y ∧ Convertible h sign m t :=
    fun y hy => .inr ⟨hm, by rwa [List.mem_singleton.mp hy], hconv⟩
  have hvec := crossDumpVector_encode ht.endian (Host.le_eight_of_mem hm).2
    ⟨by omega, hsize.2⟩ hitem
  rwa [List.flatMap_singleton] at hvec

theorem reads_dumpInt (ht : Target c e) (hs : Supported h c) {x : Int} (hx : FitsSigned h.int x)
    (hx' : FitsSigned c.intSize x) : Reads (loadInt e c) (dumpInt h c x) x := by
  rw [dumpInt, ht.singleton h.int_mem (by simp) hs.int hx]
  exact reads_signed hx' e

theorem reads_dumpSize (ht : Target c e) (hs : Supported h c) {n : Nat}
    (hn : FitsUnsigned h.sizeT n) (hn' : FitsUnsigned c.sizeSize n) :
    Reads (loadSize e c) (dumpSize h c n) n := by
  rw [dumpSize, ht.singleton h.sizeT_mem_sizes (by simp) hs.size hn]
  exact reads_unsigned_of_fits hn' e

theorem reads_dumpInteger (ht : Target c e) (hs : Supported h c) {x : Int}
    (hx : FitsSigned h.integer x) (hx' : FitsSigned c.integerSize x) :
    Reads (loadInteger e c) (dumpInteger h c x) x := by
  rw [dumpInteger, ht.singleton h.integer_mem_sizes (by simp) hs.integer hx]
  exact reads_signed hx' e

theorem reads_dumpString (ht : Target c e) (hs : Supported h c) {s : Option (List UInt8)}
    (hfits : ∀ bs ∈ s, FitsUnsigned h.sizeT (bs.length + 1) ∧
      FitsUnsigned c.sizeSize (bs.length + 1)) :
    Reads (loadString e c) (dumpString h c s) s := by
  intro rest
  cases s with
  | none =>
    rw [dumpString, loadString, (reads_loadByte (by decide) h c e).run_bind]
    rfl
  | some bs =>
    obtain ⟨hhost, htarget⟩ := hfits bs rfl
    have hbytes : Reads (do return some (← takeBytes (bs.length + 1 - 1))) bs (some bs) :=
      (Reads.takeBytes (by omega)).bind_pure
    simp only [dumpString, loadString, crossDumpVector_bytes]
    split
    · rw [List.append_assoc, (reads_loadByte (by omega) h c e).run_bind, if_neg (by omega)]
      exact hbytes rest
    · have hsize : Reads (loadSize e c) (dumpSize h c (bs.length + 1)) (bs.length + 1) :=
        ht.reads_dumpSize hs (by exact_mod_cast hhost) (by exact_mod_cast htarget)
      rw [List.append_assoc, List.append_assoc, (reads_loadByte (by decide) h c e).run_bind,
        if_pos rfl, hsize.run_bind]
      exact hbytes rest

theorem reads_dumpNumber (ht : Target c e) (hnumber : c.numberSize = h.number) {n : Nat}
    (hn : FitsUnsigned h.number n) :
    ∃ bs, dumpNumber h c n = some bs ∧ Reads (loadNumber e c) bs n := by
  have hsize := ht.size c.numberSize (by simp)
  have hitem : ∀ y ∈ [(n : Int)], h.number = h.number ∨ h.number ∈ h.sizes ∧
      Fits .unsigned h.number y ∧ Convertible h .unsigned h.number h.number := fun _ _ => .inl rfl
  have hvec := crossDumpVector_encode ht.endian h.number_le ⟨by omega, h.number_le⟩ hitem
  rw [List.flatMap_singleton] at hvec
  refine ⟨_, if_neg (by omega), ?_⟩
  rw [List.map_singleton] at hvec
  rw [hvec, loadNumber, hnumber]
  exact reads_unsigned_of_fits hn e

/-- The counter of a vector is read before the vector. -/
theorem reads_vector (ht : Target c e) (hs : Supported h c) {α β : Type} {item : Get β}
    {enc : α → List UInt8} {val : α → β} {xs : List α} (hlen : FitsSigned h.int xs.length)
    (hlen' : FitsSigned c.intSize xs.length) (hitem : ∀ x ∈ xs, Reads item (enc x) (val x)) :
    Reads (do loadVector item (← loadInt e c).toNat) (dumpInt h c xs.length ++ xs.flatMap enc)
      (xs.map val) :=
  (ht.reads_dumpInt hs hlen hlen').bind (reads_loadVector hitem)

/-- An instruction as the signed integer that `CrossDumpVector` takes it for. -/
def signedInstruction (h : Host) (i : Nat) : Int :=
  Bytes.signed h.endian (encode h.endian h.instruction i)

theorem signedInstruction_encode (h : Host) (i : Nat) :
    encode h.endian h.instruction (signedInstruction h i) = encode h.endian h.instruction i :=
  encode_congr (signed_encode_emod ..) _

/-- The low 32 bits survive the conversion. -/
theorem signedInstruction_emod (h : Host) (i : Nat) {t : Nat} (ht : 4 ≤ t) :
    (signedInstruction h i % 256 ^ t).toNat % 2 ^ 32 = i % 2 ^ 32 := by
  have hdvd : ∀ k, 4 ≤ k → (2 ^ 32 : Int) ∣ 256 ^ k := fun k hk => pow_dvd_pow 256 hk
  have hwidth : 4 ≤ h.instruction := by
    have := h.four_le_long
    unfold Host.instruction
    split <;> omega
  have hlow : signedInstruction h i % 2 ^ 32 = i % 2 ^ 32 := by
    rw [← Int.emod_emod_of_dvd _ (hdvd _ hwidth), signedInstruction, signed_encode_emod,
      Int.emod_emod_of_dvd _ (hdvd _ hwidth)]
  have hnonneg := Int.emod_nonneg (signedInstruction h i) (pow_ne_zero t (by decide : (256 : Int) ≠ 0))
  zify
  rw [Int.toNat_of_nonneg hnonneg, Int.emod_emod_of_dvd _ (hdvd t ht), hlow]

theorem reads_dumpCode (ht : Target c e) (hs : Supported h c) {code : List Nat}
    (hlen : FitsSigned h.int code.length) (hlen' : FitsSigned c.intSize code.length) :
    ∃ code', Reads (loadCode e c) (dumpCode h c code) code' ∧
      code'.map (· % 2 ^ 32) = code.map (· % 2 ^ 32) := by
  have hsize := ht.size c.codeSize (by simp)
  have hitem : ∀ x ∈ code.map (signedInstruction h), c.codeSize = h.instruction ∨
      h.instruction ∈ h.sizes ∧ Fits .signed h.instruction x ∧
        Convertible h .signed h.instruction c.codeSize := by
    intro x hx
    obtain ⟨i, -, rfl⟩ := List.mem_map.mp hx
    exact .inr ⟨h.instruction_mem, fitsSigned_signed_encode .., hs.code⟩
  have hvec := crossDumpVector_encode ht.endian (Host.le_eight_of_mem h.instruction_mem).2
    ⟨by omega, hsize.2⟩ hitem
  rw [List.map_map, List.flatMap_map] at hvec
  have hmem : code.map (encode h.endian h.instruction ∘ signedInstruction h) =
      code.map fun (i : Nat) => encode h.endian h.instruction i :=
    List.map_congr_left fun i _ => signedInstruction_encode h i
  rw [hmem] at hvec
  refine ⟨code.map fun i => (signedInstruction h i % 256 ^ c.codeSize).toNat, ?_, ?_⟩
  · rw [dumpCode, hvec]
    exact ht.reads_vector hs hlen hlen' fun i _ => reads_unsigned e _ _
  · rw [List.map_map]
    exact List.map_congr_left fun i _ => signedInstruction_emod h i hsize.1

theorem reads_dumpLineinfo (ht : Target c e) (hs : Supported h c) {lineinfo : List Int}
    (hlen : FitsSigned h.int lineinfo.length) (hlen' : FitsSigned c.intSize lineinfo.length)
    (hfits : ∀ x ∈ lineinfo, FitsSigned h.int x ∧ FitsSigned c.intSize x) :
    Reads (loadLineinfo e c) (dumpLineinfo h c lineinfo) lineinfo := by
  have hsize := ht.size c.intSize (by simp)
  have hitem : ∀ x ∈ lineinfo, c.intSize = h.int ∨
      h.int ∈ h.sizes ∧ Fits .signed h.int x ∧ Convertible h .signed h.int c.intSize :=
    fun x hx => .inr ⟨h.int_mem, (hfits x hx).1, hs.int⟩
  have hvec := crossDumpVector_encode ht.endian (Host.le_eight_of_mem h.int_mem).2
    ⟨by omega, hsize.2⟩ hitem
  rw [dumpLineinfo, hvec]
  have hitem : ∀ x ∈ lineinfo, Reads (loadInt e c) (encode e c.intSize x) (id x) :=
    fun x hx => reads_signed (hfits x hx).2 e
  have hread := ht.reads_vector hs hlen hlen' hitem
  rwa [List.map_id] at hread

/-- The announced sizes are those of the setup, and are read as such. -/
theorem reads_dumpHeaderSizes (ht : Target c e) (h : Host) :
    Reads (loadVector (loadByte e) 5) (dumpHeaderSizes h c)
      [c.intSize, c.sizeSize, c.codeSize, c.integerSize, c.numberSize] := by
  have horElse : ∀ s ∈ [c.intSize, c.sizeSize, c.codeSize, c.integerSize, c.numberSize], ∀ b : Nat,
      (if s = 0 then b else s) = s := fun s hs b => by
    have := ht.size s hs
    rw [if_neg (by omega)]
  have hsizes : headerSizes h c =
      [c.intSize, c.sizeSize, c.codeSize, c.integerSize, c.numberSize] := by
    simp only [headerSizes, horElse _ (show c.intSize ∈ _ by simp),
      horElse _ (show c.sizeSize ∈ _ by simp), horElse _ (show c.codeSize ∈ _ by simp),
      horElse _ (show c.integerSize ∈ _ by simp), horElse _ (show c.numberSize ∈ _ by simp)]
  have hitem : ∀ s ∈ headerSizes h c, Reads (loadByte e) (dumpByte h c s) (id s) := fun s hs => by
    rw [hsizes] at hs
    have := ht.size s hs
    exact reads_loadByte (by omega) h c e
  have hread := reads_loadVector hitem
  rw [List.map_id] at hread
  rw [← hsizes]
  exact hread

/-- A supported target reads back everything. -/
theorem decodes (ht : Target c e) (hs : Supported h c) : Decodes h c e := by
  have hpos : ∀ s ∈ [c.intSize, c.sizeSize, c.codeSize, c.integerSize, c.numberSize],
      s ≠ 0 ∧ s ≤ 8 := fun s hs => by
    have := ht.size s hs
    omega
  have hle : ∀ m ∈ h.sizes, m ≤ 8 := fun m hm => (Host.le_eight_of_mem hm).2
  refine {
    int := fun x hx hx' => ht.reads_dumpInt hs hx hx'
    size := fun n hn hn' => ht.reads_dumpSize hs hn hn'
    string := fun s hfits => ht.reads_dumpString hs hfits
    integer := fun x hx hx' => ht.reads_dumpInteger hs hx hx'
    number := fun hnumber n hn => ht.reads_dumpNumber hnumber hn
    code := fun code hlen hlen' => ht.reads_dumpCode hs hlen hlen'
    lineinfo := fun lineinfo hlen hlen' hfits => ht.reads_dumpLineinfo hs hlen hlen' hfits
    announced := ht.reads_dumpHeaderSizes h
    intWidth := fun x => length_crossDumpVector_singleton h c _ x (hle _ h.int_mem) (hpos _ (by simp))
    sizeWidth := fun n =>
      length_crossDumpVector_singleton h c _ n (hle _ h.sizeT_mem_sizes) (hpos _ (by simp))
    integerWidth := fun x =>
      length_crossDumpVector_singleton h c _ x (hle _ h.integer_mem_sizes) (hpos _ (by simp))
    numberWidth := fun n bs hbs => ?_ }
  have hnumber := hpos c.numberSize (by simp)
  unfold dumpNumber at hbs
  by_cases hne : c.numberSize ≠ 0 ∧ c.numberSize ≠ h.number
  · rw [if_pos hne] at hbs
    exact absurd hbs (by simp)
  · rw [if_neg hne] at hbs
    have heq : c.numberSize = h.number := by
      by_contra hnumber'
      exact hne ⟨hnumber.1, hnumber'⟩
    rw [heq] at hnumber
    rw [← Option.some.inj hbs, heq]
    exact length_crossDumpVector_singleton h c _ n h.number_le hnumber

end Target

/-- Bytecode for a target that `-c` admits is read back, from every host that has the integer types
for it. -/
theorem crossDump_decodes {mode : List Char} (hc : doargsCross mode = some c) (hs : Supported h c) :
    ∃ e, c.endian = some e ∧ Decodes h c e := by
  obtain ⟨e, he⟩ := (doargsCross_admitted hc).1
  exact ⟨e, he, (target_of_doargsCross hc he).decodes hs⟩

end decode

/-- A big-endian host with the usual 64-bit types. -/
def lp64Big : Host where
  endian := .big
  short := 2
  int := 4
  long := 8
  sizeT := 8
  integer := 8
  number := 8
  two_le_short := by decide
  short_le_int := by decide
  int_le_long := by decide
  four_le_long := by decide
  long_le := by decide
  sizeT_mem := by decide
  integer_mem := by decide
  number_le := by decide

theorem crossDump_decodes_lp64Big :
    ∃ e, (some .little : Option Endian) = some e ∧
      Decodes lp64Big ⟨some .little, 4, 4, 4, 8, 8⟩ e := by
  have hc : doargsCross "L44488".toList = some ⟨some .little, 4, 4, 4, 8, 8⟩ := by decide
  have hs : Supported lp64Big ⟨some .little, 4, 4, 4, 8, 8⟩ :=
    ⟨by decide, by decide, by decide, by decide⟩
  exact crossDump_decodes hc hs

/-- A big-endian host with `int` of 8 bytes and no type of 4. -/
def ilp64Big : Host where
  endian := .big
  short := 2
  int := 8
  long := 8
  sizeT := 8
  integer := 8
  number := 8
  two_le_short := by decide
  short_le_int := by decide
  int_le_long := by decide
  four_le_long := by decide
  long_le := by decide
  sizeT_mem := by decide
  integer_mem := by decide
  number_le := by decide

/-- There the integer 1 for a target with `int` of 4 bytes is dumped as `01 00 00 00`. -/
theorem not_decodes_ilp64Big :
    doargsCross "B44488".toList = some ⟨some .big, 4, 4, 4, 8, 8⟩ ∧
      ¬ Decodes ilp64Big ⟨some .big, 4, 4, 4, 8, 8⟩ .big := by
  refine ⟨by decide, fun h => ?_⟩
  have hread := h.int 1 ⟨by decide, by decide⟩ ⟨by decide, by decide⟩ []
  exact absurd hread (by decide)

end Dir842.Lua
