import Mathlib.Algebra.Order.Ring.Nat
import Mathlib.Data.Nat.Log

/-!
# Binary64 values of numerals

The double nearest to a nonnegative rational number, as an integer times a power of two. Infinity
is not kept apart from the numbers above the largest double.
-/

namespace Double

/-- The quotient rounded to the nearest integer, ties to even. -/
def roundHalfEven (n d : Nat) : Nat :=
  if 2 * (n % d) < d ∨ (2 * (n % d) = d ∧ n / d % 2 = 0) then n / d else n / d + 1

/-- The exponent `e` with `2 ^ e ≤ n / d < 2 ^ (e + 1)`. -/
def exponent (n d : Nat) : Int :=
  let e : Int := (n.log2 : Int) - d.log2
  if n * 2 ^ (-e).toNat < d * 2 ^ e.toNat then e - 1 else e

/-- Mantissa and exponent of the double nearest to `n / d`. -/
def ofRat (n d : Nat) : Nat × Int :=
  if n * 2 ^ 1075 ≤ d then (0, 0)
  else
    let e := exponent n d - 52
    (roundHalfEven (n * 2 ^ (-e).toNat) (d * 2 ^ e.toNat), e)

/-- The double as an integer, if it is one. -/
def toNat? (x : Nat × Int) : Option Nat :=
  if 0 ≤ x.2 then some (x.1 * 2 ^ x.2.toNat)
  else if 2 ^ (-x.2).toNat ∣ x.1 then some (x.1 / 2 ^ (-x.2).toNat) else none

theorem roundHalfEven_of_dvd {n d : Nat} (hd : 0 < d) (h : d ∣ n) : roundHalfEven n d = n / d := by
  unfold roundHalfEven
  rw [if_pos]
  left
  rw [Nat.mod_eq_zero_of_dvd h]
  omega

theorem roundHalfEven_le (n d : Nat) : roundHalfEven n d ≤ n / d + 1 := by
  unfold roundHalfEven
  split
  · omega
  · omega

theorem exponent_one {n : Nat} (hn : 0 < n) : exponent n 1 = n.log2 := by
  have hlog : Nat.log2 1 = 0 := rfl
  have hle : 2 ^ n.log2 ≤ n := Nat.log2_self_le (by omega)
  simp only [exponent, hlog]
  rw [if_neg]
  · omega
  · simp
    omega

theorem toNat?_ofRat_zero : toNat? (ofRat 0 1) = some 0 := by
  rw [ofRat, Nat.zero_mul, if_pos (Nat.zero_le 1)]
  rfl

/-- An integer is rounded by whole units of two to a power: what divides it as such still does, and
it does not double. -/
theorem toNat?_ofRat_one {n r : Nat} (hn : 0 < n) (hr : toNat? (ofRat n 1) = some r) :
    r ≤ 2 * n ∧ ∀ k, 2 ^ k ∣ n → 2 ^ k ∣ r := by
  have hle : 2 ^ n.log2 ≤ n := Nat.log2_self_le (by omega)
  have hpos : ∀ k, k ≠ 0 → ¬ n * 2 ^ k ≤ 1 := by
    intro k hk
    have hmul : 1 * 2 ^ k ≤ n * 2 ^ k := Nat.mul_le_mul_right _ hn
    have hpow : 1 < 2 ^ k := Nat.one_lt_two_pow hk
    omega
  rw [ofRat, if_neg (hpos 1075 (by decide)), exponent_one hn] at hr
  rcases Nat.lt_or_ge n.log2 52 with hlt | hge
  · -- below 2 ^ 52 the value itself is a double
    have he : (-((n.log2 : Int) - 52)).toNat = 52 - n.log2 := by omega
    have he' : ((n.log2 : Int) - 52).toNat = 0 := by omega
    simp only [he, he', pow_zero, mul_one] at hr
    rw [roundHalfEven_of_dvd (by decide) (one_dvd _), Nat.div_one, toNat?,
      if_neg (by simp only; omega)] at hr
    simp only [he, Nat.dvd_mul_left, if_true, Option.some.injEq] at hr
    rw [Nat.mul_div_cancel _ (Nat.two_pow_pos _)] at hr
    subst hr
    exact ⟨by omega, fun k hk => hk⟩
  · obtain ⟨j, hj⟩ : ∃ j, n.log2 = j + 52 := ⟨n.log2 - 52, by omega⟩
    have he : (-((n.log2 : Int) - 52)).toNat = 0 := by omega
    have he' : ((n.log2 : Int) - 52).toNat = j := by omega
    simp only [he, he', pow_zero, mul_one, one_mul] at hr
    rw [toNat?, if_pos (by simp only; omega)] at hr
    simp only [he', Option.some.injEq] at hr
    have hjn : 2 ^ j ≤ n := (Nat.pow_le_pow_right Nat.two_pos (by omega)).trans hle
    refine ⟨?_, fun k hk => ?_⟩
    · have hround := Nat.mul_le_mul_right (2 ^ j) (roundHalfEven_le n (2 ^ j))
      have hdiv := Nat.div_mul_le_self n (2 ^ j)
      rw [hr, Nat.add_mul] at hround
      omega
    · rcases Nat.le_total k j with hkj | hkj
      · exact hr ▸ (pow_dvd_pow 2 hkj).mul_left _
      · have hdvd : 2 ^ j ∣ n := (pow_dvd_pow 2 hkj).trans hk
        rw [roundHalfEven_of_dvd (Nat.two_pow_pos j) hdvd, Nat.div_mul_cancel hdvd] at hr
        exact hr ▸ hk

end Double
