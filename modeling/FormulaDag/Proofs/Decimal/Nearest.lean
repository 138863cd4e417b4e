import Mathlib
import FormulaDag.Decimal.Rounding

/-!
# The nearest decimal

A fraction is rounded to the nearest integer, the even one of two that are equally near, and there is one such integer. Rounding to
places or to significant digits scales the exact magnitude of a double first, so it leads to the nearest decimal with that last place.
-/

namespace FormulaDag

/-- A fraction is its integral part and the fraction of the remainder. -/
theorem cast_div_eq_add (n : Nat) {d : Nat} (hd : 0 < d) : (n : ℚ) / d = (n / d : Nat) + (n % d : Nat) / d := by
  have hne : (d : ℚ) ≠ 0 := by exact_mod_cast hd.ne'
  have hsplit : (d : ℚ) * (n / d : Nat) + (n % d : Nat) = n := by exact_mod_cast Nat.div_add_mod n d
  rw [div_eq_iff hne, add_mul, div_mul_cancel₀ _ hne, mul_comm, hsplit]

/-- A natural number that is nearest to a rational one, the even one of two that are equally near. -/
def NearestEven (k : Nat) (x : ℚ) : Prop := |x - k| < 1 / 2 ∨ |x - k| = 1 / 2 ∧ k % 2 = 0

namespace NearestEven

variable {k k' : Nat} {x : ℚ}

/-- A nearest number is at most half away. -/
theorem abs_le_half (h : NearestEven k x) : |x - k| ≤ 1 / 2 := h.elim le_of_lt fun h => h.1.le

/-- No number is nearer. -/
theorem le (h : NearestEven k x) (m : Nat) : |x - k| ≤ |x - m| := by
  by_contra hlt
  have hdistance : |((k : Int) : ℚ) - (m : Int)| < 1 := by
    calc |((k : Int) : ℚ) - (m : Int)| = |(x - m) - (x - k)| := by
          congr 1
          push_cast
          ring
      _ ≤ |x - m| + |x - k| := abs_sub _ _
      _ < 1 := by linarith [h.abs_le_half, not_le.1 hlt]
  have heq : (k : Int) = m := by
    rw [← Int.cast_sub, ← Int.cast_abs, ← Int.cast_one, Int.cast_lt, Int.abs_lt_one_iff] at hdistance
    omega
  rw [Int.ofNat_inj.1 heq] at hlt
  exact hlt le_rfl

/-- There is one nearest number. -/
theorem unique (h : NearestEven k x) (h' : NearestEven k' x) : k = k' := by
  by_contra hne
  wlog hlt : k < k' generalizing k k'
  · exact this h' h (Ne.symm hne) (by omega)
  have hle : (k : ℚ) + 1 ≤ k' := by exact_mod_cast hlt
  have hlow := (abs_le.1 h.abs_le_half).2
  have hhigh := (abs_le.1 h'.abs_le_half).1
  -- the number lies halfway between the two, which are neighbours, so not both are even
  have hmiddle : x - k = 1 / 2 := by linarith
  have hmiddle' : x - k' = -(1 / 2) := by linarith
  have hnext : k' = k + 1 := by
    have hcast : (k' : ℚ) = (k + 1 : Nat) := by
      push_cast
      linarith
    exact_mod_cast hcast
  rw [NearestEven, hmiddle] at h
  rw [NearestEven, hmiddle'] at h'
  norm_num [abs_of_pos] at h h'
  omega

/-- A natural number is nearest to itself. -/
theorem self (k : Nat) : NearestEven k k := .inl (by norm_num)

/-- Of the neighbours of a half the even one is the nearest. -/
theorem half_of_even (hk : k % 2 = 0) : NearestEven k (k + 1 / 2) :=
  .inr ⟨by rw [add_sub_cancel_left, abs_of_pos (by norm_num)], hk⟩

theorem half_of_odd (hk : k % 2 = 1) : NearestEven (k + 1) (k + 1 / 2) := by
  refine .inr ⟨?_, by omega⟩
  rw [Nat.cast_add, Nat.cast_one, show (k : ℚ) + 1 / 2 - (k + 1) = -(1 / 2) by ring, abs_neg, abs_of_pos (by norm_num)]

/-- A nearest number is within a bound that the rational one is below. -/
theorem le_of_lt (h : NearestEven k x) {n : Nat} (hx : x < n) : k ≤ n := by
  by_contra hlt
  have hle : (n : ℚ) + 1 ≤ k := by exact_mod_cast not_le.1 hlt
  linarith [(abs_le.1 h.abs_le_half).1, hx]

end NearestEven

section

variable {r d : Nat} (hd : 0 < d)

include hd

/-- A fraction is compared with a half by comparing twice its numerator with its denominator. -/
theorem div_lt_half : (r : ℚ) / d < 1 / 2 ↔ 2 * r < d := by
  rw [div_lt_div_iff₀ (by exact_mod_cast hd) two_pos, one_mul, mul_comm]
  exact_mod_cast Iff.rfl

theorem half_lt_div : 1 / 2 < (r : ℚ) / d ↔ d < 2 * r := by
  rw [div_lt_div_iff₀ two_pos (by exact_mod_cast hd), one_mul, mul_comm]
  exact_mod_cast Iff.rfl

theorem div_eq_half : (r : ℚ) / d = 1 / 2 ↔ 2 * r = d := by
  rw [div_eq_div_iff (by exact_mod_cast hd.ne') two_ne_zero, one_mul, mul_comm]
  exact_mod_cast Iff.rfl

end

/-- Rounding a fraction leads to the nearest number. -/
theorem nearestEven_roundHalfEven (n : Nat) {d : Nat} (hd : 0 < d) : NearestEven (roundHalfEven n d) (n / d) := by
  have hpos : (0 : ℚ) < d := by exact_mod_cast hd
  have hone : ((n % d : Nat) : ℚ) / d < 1 := (div_lt_one hpos).2 (by exact_mod_cast Nat.mod_lt n hd)
  rw [cast_div_eq_add n hd, roundHalfEven]
  generalize n / d = q at *
  generalize n % d = r at *
  have hnonneg : (0 : ℚ) ≤ r / d := by positivity
  split_ifs with hbelow habove heven
  · have hhalf : (r : ℚ) / d < 1 / 2 := (div_lt_half hd).2 (by omega)
    left
    rwa [add_sub_cancel_left, abs_of_nonneg hnonneg]
  · have hhalf : 1 / 2 < (r : ℚ) / d := (half_lt_div hd).2 (by omega)
    left
    rw [abs_lt]
    push_cast
    constructor <;> linarith
  · rw [(div_eq_half hd).2 (by omega)]
    exact .half_of_even heven
  · rw [(div_eq_half hd).2 (by omega)]
    exact .half_of_odd (by omega)

/-- The magnitude of a decimal. -/
def Decimal.magnitude (d : Decimal) : ℚ := d.coefficient * 10 ^ d.exponent

namespace Binary

/-- The magnitude of a number. -/
def magnitude (b : Binary) : ℚ := b.significand * 2 ^ b.exponent

/-- A power with an integer exponent is a fraction of powers with natural ones. -/
theorem zpow_eq_div (x : ℚ) (e : Int) : x ^ e = x ^ e.toNat / x ^ (-e).toNat := by
  rcases le_total 0 e with he | he
  · rw [show (-e).toNat = 0 by omega, pow_zero, div_one, ← zpow_natCast, Int.toNat_of_nonneg he]
  · rw [show e.toNat = 0 by omega, pow_zero, one_div, ← zpow_natCast, Int.toNat_of_nonneg (by omega), zpow_neg, inv_inv]

/-- The scaled fraction is the magnitude divided by the power of ten. -/
theorem div_scaled (b : Binary) (e : Int) : ((b.scaled e).1 : ℚ) / (b.scaled e).2 = b.magnitude / 10 ^ e := by
  rw [magnitude, scaled, numerator, denominator, zpow_eq_div 2, zpow_eq_div 10]
  simp only [Nat.pow_eq]
  push_cast
  have htwo : (2 : ℚ) ^ (-b.exponent).toNat ≠ 0 := pow_ne_zero _ two_ne_zero
  have hten : ∀ n, (10 : ℚ) ^ n ≠ 0 := fun n => pow_ne_zero n (by norm_num)
  field_simp [hten]

theorem scaled_snd_pos (b : Binary) (e : Int) : 0 < (b.scaled e).2 :=
  Nat.mul_pos b.denominator_pos (Nat.pow_pos (by decide))

/-- Rounding at a power of ten leads to the nearest multiple of it. -/
theorem nearestEven_scaled (b : Binary) (e : Int) :
    NearestEven (roundHalfEven (b.scaled e).1 (b.scaled e).2) (b.magnitude / 10 ^ e) :=
  b.div_scaled e ▸ nearestEven_roundHalfEven _ (b.scaled_snd_pos e)

/-- A magnitude without bits behind a place has no digits behind it either. -/
theorem exists_eq_mul_pow {b : Binary} {places : Nat} (hb : -places ≤ b.exponent) : ∃ n : Nat, b.magnitude * 10 ^ places = n := by
  refine ⟨b.significand * (2 ^ (b.exponent + places).toNat * 5 ^ places), ?_⟩
  have hpow : (2 : ℚ) ^ b.exponent * 2 ^ places = 2 ^ (b.exponent + places).toNat := by
    rw [← zpow_natCast (2 : ℚ) places, ← zpow_add₀ two_ne_zero, ← zpow_natCast, Int.toNat_of_nonneg (by omega)]
  push_cast
  rw [magnitude, show (10 : ℚ) = 2 * 5 by norm_num, mul_pow, ← hpow]
  ring

/-- Rounding to places leads to the nearest decimal with that many places. -/
theorem exists_nearestEven_toPlaces {b : Binary} (hb : -1074 ≤ b.exponent) (places : Nat) :
    ∃ k, NearestEven k (b.magnitude / 10 ^ (-places : Int)) ∧ (b.toPlaces places).magnitude = k * 10 ^ (-places : Int) := by
  have hplaces : -((1074 : Nat) : Int) ≤ b.exponent := hb
  rw [toPlaces, Decimal.magnitude]
  generalize 1074 = top at hplaces
  rcases le_or_gt places top with hle | hlt
  · rw [min_eq_left hle]
    exact ⟨_, b.nearestEven_scaled _, rfl⟩
  · -- all digits are there, and what is rounded is an integer already
    obtain ⟨n, hn⟩ := exists_eq_mul_pow hplaces
    have hscale : ∀ k : Nat, b.magnitude / 10 ^ (-k : Int) = b.magnitude * 10 ^ k := fun k => by
      rw [zpow_neg, div_inv_eq_mul, zpow_natCast]
    have hinteger : b.magnitude / 10 ^ (-places : Int) = (n * 10 ^ (places - top) : Nat) := by
      rw [hscale, ← Nat.add_sub_cancel' hlt.le, pow_add, ← mul_assoc, hn, Nat.add_sub_cancel_left, Nat.cast_mul, Nat.cast_pow,
        Nat.cast_ofNat]
    refine ⟨n * 10 ^ (places - top), hinteger ▸ NearestEven.self _, ?_⟩
    have hten : ∀ e : Int, (10 : ℚ) ^ e ≠ 0 := fun e => zpow_ne_zero e (by norm_num)
    rw [min_eq_right hlt.le, (b.nearestEven_scaled (-top)).unique ((hscale top).trans hn ▸ NearestEven.self n), ← hinteger, ← hn, ← hscale,
      div_mul_cancel₀ _ (hten _), div_mul_cancel₀ _ (hten _)]

/-- Rounding to significant digits leads to the nearest decimal with that many digits. -/
theorem exists_nearestEven_toSignificant (b : Binary) {digits : Nat} (hpos : 1 ≤ digits) (hle : digits ≤ 800) :
    ∃ k, NearestEven k (b.magnitude / 10 ^ b.lastExponent digits) ∧ (b.toSignificant digits).magnitude = k * 10 ^ b.lastExponent digits := by
  rw [toSignificant, Decimal.magnitude, min_eq_left hle, max_eq_right hpos]
  exact ⟨_, b.nearestEven_scaled _, rfl⟩

end Binary

end FormulaDag
