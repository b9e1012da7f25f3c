import Mathlib.Algebra.Order.Ring.Int
import Mathlib.Tactic.Zify

/-!
# Integers in memory

The two's complement bytes of an integer in either byte order, and the integers that bytes spell.
-/

namespace Dir842.Bytes

inductive Endian
  | little
  | big
deriving DecidableEq

def Endian.order : Endian → List UInt8 → List UInt8
  | .little, bs => bs
  | .big, bs => bs.reverse

/-- The low `k` bytes of `n`, lowest first. -/
def leBytes : Nat → Nat → List UInt8
  | 0, _ => []
  | k + 1, n => UInt8.ofNat n :: leBytes k (n / 256)

def leValue : List UInt8 → Nat
  | [] => 0
  | b :: bs => b.toNat + 256 * leValue bs

/-- The `k` bytes of `x`. -/
def encode (e : Endian) (k : Nat) (x : Int) : List UInt8 :=
  e.order (leBytes k (x % 256 ^ k).toNat)

def unsigned (e : Endian) (bs : List UInt8) : Int := leValue (e.order bs)

def signed (e : Endian) (bs : List UInt8) : Int :=
  if 2 * unsigned e bs < 256 ^ bs.length then unsigned e bs
  else unsigned e bs - 256 ^ bs.length

def FitsUnsigned (k : Nat) (x : Int) : Prop := 0 ≤ x ∧ x < 256 ^ k

def FitsSigned (k : Nat) (x : Int) : Prop := -256 ^ k ≤ 2 * x ∧ 2 * x < 256 ^ k

@[simp] theorem length_leBytes (k n : Nat) : (leBytes k n).length = k := by
  induction k generalizing n with
  | zero => rfl
  | succ k ih => rw [leBytes, List.length_cons, ih]

theorem leValue_leBytes (k n : Nat) : leValue (leBytes k n) = n % 256 ^ k := by
  induction k generalizing n with
  | zero => rw [leBytes, leValue, Nat.pow_zero, Nat.mod_one]
  | succ k ih =>
    rw [leBytes, leValue, ih, Nat.pow_succ, Nat.mul_comm (256 ^ k), Nat.mod_mul, UInt8.toNat_ofNat']

theorem take_leBytes {t k : Nat} (h : t ≤ k) (n : Nat) : (leBytes k n).take t = leBytes t n := by
  induction k generalizing n t with
  | zero => rw [Nat.le_zero.mp h]; rfl
  | succ k ih =>
    cases t with
    | zero => rfl
    | succ t => rw [leBytes, List.take_succ_cons, ih (by omega), leBytes]

/-- Only the low bytes count. -/
theorem leBytes_mod (k n : Nat) : leBytes k (n % 256 ^ k) = leBytes k n := by
  induction k generalizing n with
  | zero => rfl
  | succ k ih =>
    have hlow : UInt8.ofNat (n % 256 ^ (k + 1)) = UInt8.ofNat n := by
      rw [Nat.pow_succ, Nat.mul_comm (256 ^ k), ← UInt8.toNat_inj, UInt8.toNat_ofNat',
        UInt8.toNat_ofNat']
      exact Nat.mod_mul_right_mod ..
    have hhigh : n % 256 ^ (k + 1) / 256 = n / 256 % 256 ^ k := by
      rw [Nat.pow_succ, Nat.mul_comm (256 ^ k), Nat.mod_mul_right_div_self]
    rw [leBytes, hlow, hhigh, ih, leBytes]

@[simp] theorem length_order (e : Endian) (bs : List UInt8) : (e.order bs).length = bs.length := by
  cases e <;> simp [Endian.order]

@[simp] theorem order_order (e : Endian) (bs : List UInt8) : e.order (e.order bs) = bs := by
  cases e <;> simp [Endian.order]

@[simp] theorem length_encode (e : Endian) (k : Nat) (x : Int) : (encode e k x).length = k := by
  simp [encode]

theorem reverse_encode {e e' : Endian} (h : e ≠ e') (k : Nat) (x : Int) :
    (encode e k x).reverse = encode e' k x := by
  cases e <;> cases e' <;> simp_all [encode, Endian.order]

/-- Integers that agree modulo the width have the same bytes. -/
theorem encode_congr {k : Nat} {x y : Int} (h : x % 256 ^ k = y % 256 ^ k) (e : Endian) :
    encode e k x = encode e k y := by
  rw [encode, encode, h]

theorem unsigned_encode (e : Endian) (k : Nat) (x : Int) :
    unsigned e (encode e k x) = x % 256 ^ k := by
  have hpos : (0 : Int) < 256 ^ k := pow_pos (by decide) k
  have hnonneg := Int.emod_nonneg x hpos.ne'
  have hlt := Int.emod_lt_of_pos x hpos
  rw [unsigned, encode, order_order, leValue_leBytes, Nat.mod_eq_of_lt, Int.toNat_of_nonneg hnonneg]
  zify
  rwa [Int.toNat_of_nonneg hnonneg]

theorem unsigned_encode_of_fits {k : Nat} {x : Int} (h : FitsUnsigned k x) (e : Endian) :
    unsigned e (encode e k x) = x := by
  rw [unsigned_encode, Int.emod_eq_of_lt h.1 h.2]

/-- Two's complement. -/
theorem signed_encode_of_fits {k : Nat} {x : Int} (h : FitsSigned k x) (e : Endian) :
    signed e (encode e k x) = x := by
  rw [signed, unsigned_encode, length_encode]
  obtain ⟨hlo, hhi⟩ := h
  rcases lt_or_ge x 0 with hx | hx
  · have hmod : x % 256 ^ k = x + 256 ^ k := by
      rw [← Int.add_emod_right, Int.emod_eq_of_lt (by omega) (by omega)]
    rw [hmod, if_neg (by omega)]
    omega
  · rw [Int.emod_eq_of_lt hx (by omega), if_pos hhi]

/-- Reading the bytes as a signed integer changes nothing modulo the width. -/
theorem signed_encode_emod (e : Endian) (k : Nat) (x : Int) :
    signed e (encode e k x) % 256 ^ k = x % 256 ^ k := by
  rw [signed, unsigned_encode, length_encode]
  split
  · rw [Int.emod_emod_of_dvd _ (dvd_refl _)]
  · rw [Int.sub_emod_right, Int.emod_emod_of_dvd _ (dvd_refl _)]

theorem fitsSigned_signed_encode (e : Endian) (k : Nat) (x : Int) :
    FitsSigned k (signed e (encode e k x)) := by
  have hpos : (0 : Int) < 256 ^ k := pow_pos (by decide) k
  have hnonneg := Int.emod_nonneg x hpos.ne'
  have hlt := Int.emod_lt_of_pos x hpos
  rw [signed, unsigned_encode, length_encode, FitsSigned]
  split <;> omega

theorem leBytes_append_zeros {k n : Nat} (h : n < 256 ^ k) (j : Nat) :
    leBytes k n ++ List.replicate j 0 = leBytes (k + j) n := by
  induction k generalizing n with
  | zero =>
    obtain rfl : n = 0 := by simpa using h
    rw [Nat.zero_add]
    induction j with
    | zero => rfl
    | succ j ih => exact congrArg (0 :: ·) ih
  | succ k ih =>
    rw [Nat.pow_succ] at h
    rw [Nat.add_right_comm, leBytes, leBytes, List.cons_append, ih (Nat.div_lt_of_lt_mul (by omega))]

/-- A little-endian unsigned integer is widened by zeros. -/
theorem encode_little_append_zeros {k : Nat} {x : Int} (h : FitsUnsigned k x) (j : Nat) :
    encode .little k x ++ List.replicate j 0 = encode .little (k + j) x := by
  have hpow : (256 : Int) ^ k ≤ 256 ^ (k + j) := pow_le_pow_right₀ (by decide) (Nat.le_add_right k j)
  show leBytes k _ ++ _ = leBytes (k + j) _
  rw [Int.emod_eq_of_lt h.1 h.2, Int.emod_eq_of_lt h.1 (by have := h.2; omega)]
  refine leBytes_append_zeros ?_ j
  zify
  rw [Int.toNat_of_nonneg h.1]
  exact h.2

/-- The low bytes of a little-endian integer are the bytes of a narrower one. -/
theorem take_encode_little {t k : Nat} (h : t ≤ k) (x : Int) :
    (encode .little k x).take t = encode .little t x := by
  have hdvd : (256 : Int) ^ t ∣ 256 ^ k := pow_dvd_pow 256 h
  have hmod : x % 256 ^ k % 256 ^ t = x % 256 ^ t := Int.emod_emod_of_dvd x hdvd
  have hnat : (x % 256 ^ k).toNat % 256 ^ t = (x % 256 ^ t).toNat := by
    have hnonneg : ∀ k : Nat, 0 ≤ x % 256 ^ k := fun k =>
      Int.emod_nonneg x (pow_ne_zero k (by decide))
    zify
    rw [Int.toNat_of_nonneg (hnonneg k), Int.toNat_of_nonneg (hnonneg t), hmod]
  show (leBytes k _).take t = leBytes t _
  rw [take_leBytes h, ← leBytes_mod t, hnat]

end Dir842.Bytes
