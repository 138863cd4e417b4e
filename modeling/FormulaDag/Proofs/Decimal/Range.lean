import FormulaDag.Decimal.Rounding
import FormulaDag.Proofs.Decimal.Doubles

/-!
# Decimals within the range of doubles

The double nearest to a decimal is finite when the decimal is less than half a unit above the greatest double, and it is a number or an
infinity in any case. A finite double that is rounded to places stays in this range. One that is rounded to significant digits does too,
unless it is so close to the end of the range that it may be rounded beyond it.
-/

namespace FormulaDag

namespace Doubles

open Float.Model Float.Model.UnpackedFloat

/-- Half a unit above the greatest double. -/
@[irreducible] def limit : Nat := (2 ^ 54 - 1) * 2 ^ 970

theorem limit_mul_two_pow (n : Nat) : limit * 2 ^ n = (2 ^ 54 - 1) * 2 ^ (970 + n) := by
  have hpower : ∀ k, (2 ^ 54 - 1) * 2 ^ k * 2 ^ n = (2 ^ 54 - 1) * 2 ^ (k + n) := fun k => by rw [Nat.mul_assoc, ← Nat.pow_add]
  unfold limit
  exact hpower 970

theorem limit_lt {n : Nat} (h : 309 ≤ n) : limit < 10 ^ n := by
  have hlt : limit < 10 ^ 309 := by decide +kernel
  exact Nat.lt_of_lt_of_le hlt (pow_le_pow_right₀ (by decide) h)

/-- A product fits when its factors are small enough. -/
theorem fits_mul {sign₁ sign₂ : Sign} {m₁ m₂ : Nat} {e₁ e₂ : Int} (h₁ : 0 < m₁) (h₂ : 0 < m₂) (he : e₁ + e₂ ≤ 971)
    (h : 2 * (m₁ * m₂) < (2 ^ 54 - 1) * 2 ^ (971 - (e₁ + e₂)).toNat) :
    Fits 971 (mul Format.binary64 (.finite sign₁ m₁ e₁ h₁) (.finite sign₂ m₂ e₂ h₂)) :=
  fits_roundWithAccuracy (by decide) he h

/-- Twice a quotient, rounded down, is what its mantissa and the accuracy of that say. -/
theorem halves_quotient (n : Nat) {d : Nat} (hd : 0 < d) :
    halves (ExtendedMantissa.ofMantissaAndAccuracy (n / d) (accuracyOfFraction (n % d) d)) = 2 * n / d := by
  have hmod := Nat.mod_lt n hd
  have hn := Nat.div_add_mod n d
  rw [accuracyOfFraction]
  split
  · rename_i hzero
    rw [hzero, Nat.add_zero] at hn
    rw [← hn, show 2 * (d * (n / d)) = d * (2 * (n / d)) by ring, Nat.mul_div_cancel_left _ hd, Nat.mul_div_cancel_left _ hd]
    rfl
  · rename_i hpos
    have hdouble : 2 * n / d = 2 * (n / d) + 2 * (n % d) / d := by
      conv_lhs => rw [← hn, Nat.mul_add, Nat.mul_left_comm, Nat.mul_add_div hd]
    rw [hdouble]
    cases hcompare : compare (2 * (n % d)) d with
    | lt =>
      rw [Nat.div_eq_of_lt (Nat.compare_eq_lt.1 hcompare)]
      rfl
    | eq =>
      rw [Nat.compare_eq_eq.1 hcompare, Nat.div_self hd]
      rfl
    | gt =>
      have hlt := Nat.compare_eq_gt.1 hcompare
      rw [show 2 * (n % d) / d = 1 from Nat.div_eq_of_lt_le (by omega) (by omega)]
      rfl

/-- A quotient fits when its numerator is small enough. -/
theorem fits_div {sign₁ sign₂ : Sign} {m₁ m₂ : Nat} {e₁ e₂ : Int} (h₁ : 0 < m₁) (h₂ : 0 < m₂) (he : e₁ - e₂ ≤ 971)
    (h : 2 * m₁ < m₂ * ((2 ^ 54 - 1) * 2 ^ (971 - (e₁ - e₂)).toNat)) :
    Fits 971 (div Format.binary64 (.finite sign₁ m₁ e₁ h₁) (.finite sign₂ m₂ e₂ h₂)) := by
  rw [UnpackedFloat.div]
  simp only [divCore]
  generalize Format.binary64.targetExponent (totalExponent m₁ e₁ - totalExponent m₂ e₂) = target
  refine fits_roundWithAccuracy (by decide) (by omega) ?_
  have hsplit : (971 - min (e₁ - e₂) target).toNat = (971 - (e₁ - e₂)).toNat + (e₁ - e₂ - min (e₁ - e₂) target).toNat := by omega
  rw [halves_quotient _ h₂, Nat.div_lt_iff_lt_mul h₂, hsplit, Nat.pow_add, Nat.shiftLeft_eq]
  calc 2 * (m₁ * 2 ^ (e₁ - e₂ - min (e₁ - e₂) target).toNat)
      = 2 * m₁ * 2 ^ (e₁ - e₂ - min (e₁ - e₂) target).toNat := by ring
    _ < m₂ * ((2 ^ 54 - 1) * 2 ^ (971 - (e₁ - e₂)).toNat) * 2 ^ (e₁ - e₂ - min (e₁ - e₂) target).toNat :=
      Nat.mul_lt_mul_of_pos_right h (Nat.two_pow_pos _)
    _ = _ := by ring

/-- A natural number of at most 53 bits is a double as it is. -/
theorem unpacked_toFloat {n : UInt64} (h : n.toNat < 2 ^ 53) : Unpacked 0 n.toFloat.toModel.unpack := by
  apply unpack_pack (by decide) (by decide)
  rw [UnpackedFloat.ofUInt64, UnpackedFloat.ofNat, UnpackedFloat.ofInt, UnpackedFloat.normalize]
  split
  · rename_i hcompare
    have := Int.compare_eq_lt.1 hcompare
    omega
  · trivial
  · have hlog : (n.toNat.log2 : Int) + 1 + 0 ≤ 0 + 53 := log2_add_le (Int.le_refl 0) (by simpa using h)
    have htarget := targetExponent_le (by decide) hlog
    rw [UnpackedFloat.round]
    simp only [decreaseExponent, Int.toNat_natCast]
    generalize Format.binary64.targetExponent (totalExponent n.toNat 0) = target at htarget
    refine fits_roundWithAccuracy (by decide) (by omega) ?_
    have hshift : (0 - (0 - ((0 - target).toNat : Int))).toNat = (0 - target).toNat := by omega
    rw [hshift, Nat.shiftLeft_eq, halves, ExtendedMantissa.ofMantissaAndAccuracy]
    have hpos := Nat.two_pow_pos (0 - target).toNat
    calc 2 * (n.toNat * 2 ^ (0 - target).toNat) + 0 = 2 * n.toNat * 2 ^ (0 - target).toNat := by ring
      _ < (2 ^ 54 - 1) * 2 ^ (0 - target).toNat := Nat.mul_lt_mul_of_pos_right (by omega) hpos

/-- A positive number of 53 bits whose exponent is no greater and no less than what powers of ten up to the 22nd need. -/
def Modest : UnpackedFloat → Bool
  | .finite _ m e _ => m < 2 ^ 53 && -52 ≤ e && e ≤ 21
  | _ => false

theorem modest_powerOfTen : ∀ e : Fin 23, Modest (Float.exactlyRepresentablePowersOfTen[e]).toModel.unpack = true := by
  decide +kernel

/-- A double of at most 53 bits times or divided by a power of ten is finite. -/
theorem isFinite_mul_div {x y : Float} (hx : Unpacked 0 x.toModel.unpack) (hy : Modest y.toModel.unpack = true) :
    (x * y).isFinite = true ∧ (x / y).isFinite = true := by
  have hmul : x * y = .ofModel (.pack (UnpackedFloat.mul Format.binary64 x.toModel.unpack y.toModel.unpack)) := rfl
  have hdiv : x / y = .ofModel (.pack (UnpackedFloat.div Format.binary64 x.toModel.unpack y.toModel.unpack)) := rfl
  rw [hmul, hdiv]
  generalize x.toModel.unpack = p at hx
  generalize y.toModel.unpack = q at hy
  cases q with
  | finite sign₂ m₂ e₂ h₂ =>
    simp only [Modest, Bool.and_eq_true, decide_eq_true_eq] at hy
    obtain ⟨⟨hm₂, hlow⟩, hhigh⟩ := hy
    cases p with
    | zero => exact ⟨isFinite_pack trivial, isFinite_pack trivial⟩
    | finite sign₁ m₁ e₁ h₁ =>
      obtain ⟨hm₁, he₁⟩ := hx
      have hwide : ∀ n : Nat, 107 ≤ n → 2 ^ 107 ≤ 2 ^ n := fun n hn => Nat.pow_le_pow_right (by decide) hn
      constructor
      · refine isFinite_pack (fits_mul h₁ h₂ (by omega) ?_)
        have hproduct : m₁ * m₂ ≤ 2 ^ 53 * 2 ^ 53 := Nat.mul_le_mul hm₁.le hm₂.le
        have := hwide (971 - (e₁ + e₂)).toNat (by omega)
        omega
      · refine isFinite_pack (fits_div h₁ h₂ (by omega) ?_)
        have := hwide (971 - (e₁ - e₂)).toNat (by omega)
        have hle := Nat.le_mul_of_pos_left ((2 ^ 54 - 1) * 2 ^ (971 - (e₁ - e₂)).toNat) h₂
        omega
    | infinity => exact hx.elim
    | notANumber => exact hx.elim
  | zero => cases hy
  | infinity => cases hy
  | notANumber => cases hy

/-- What is read from a decimal within the range fits, and in any case it is a number or an infinity. -/
theorem fits_ofScientific {m : Nat} {e : Int} (h : m * 10 ^ e.toNat < limit * 10 ^ (-e).toNat) :
    Fits 971 (UnpackedFloat.ofScientific Format.binary64 m e) := by
  have hnonnegative : 0 ≤ e → m * 10 ^ e.toNat < limit := by
    intro he
    rwa [show (-e).toNat = 0 by omega, Nat.pow_zero, Nat.mul_one] at h
  have hwidth : (2 : Int) ^ Format.binary64.exponentBits = 2048 := by decide
  have hbits : Format.binary64.mantissaBits = 53 := by decide
  rw [UnpackedFloat.ofScientific]
  split_ifs with hm hbig hsmall hsign
  · trivial
  · have hle := Nat.le_mul_of_pos_left (10 ^ e.toNat) (Nat.pos_of_ne_zero hm)
    exact absurd (hnonnegative (by omega)) (Nat.lt_asymm ((limit_lt (by omega)).trans_le hle))
  · trivial
  · refine fits_mul _ _ (by decide) ?_
    have hshift : (971 - (-(Format.binary64.mantissaBits : Int) + 0)).toNat = 970 + 54 := by decide
    rw [hshift, hbits, Nat.shiftLeft_eq, ← limit_mul_two_pow]
    calc 2 * (m * 2 ^ 53 * 10 ^ e.toNat) = m * 10 ^ e.toNat * 2 ^ 54 := by ring
      _ < limit * 2 ^ 54 := Nat.mul_lt_mul_of_pos_right (hnonnegative hsign) (Nat.two_pow_pos 54)
  · refine fits_div _ _ (by decide) ?_
    rw [show e.toNat = 0 by omega, Nat.pow_zero, Nat.mul_one] at h
    have hshift : (971 - ((0 : Int) - 0)).toNat = 970 + 1 := by decide
    rw [hshift, ← limit_mul_two_pow]
    calc 2 * m < 2 * (limit * 10 ^ (-e).toNat) := Nat.mul_lt_mul_of_pos_left h Nat.two_pos
      _ = 10 ^ (-e).toNat * (limit * 2 ^ 1) := by ring

theorem ofScientific_ne_notANumber (m : Nat) (e : Int) : UnpackedFloat.ofScientific Format.binary64 m e ≠ .notANumber := by
  rw [UnpackedFloat.ofScientific]
  split_ifs
  · exact UnpackedFloat.noConfusion
  · exact UnpackedFloat.noConfusion
  · exact UnpackedFloat.noConfusion
  · exact roundWithAccuracy_ne_notANumber Format.binary64 _ _ _ _
  · exact roundWithAccuracy_ne_notANumber Format.binary64 _ _ _ _

/-- The double nearest to a mantissa times a power of ten. -/
theorem ofScientific_cases (m : Nat) (s : Bool) (e : Nat) :
    (Float.ofScientific m s e).isFinite = true ∨
      Float.ofScientific m s e = .ofModel (.pack (UnpackedFloat.ofScientific Format.binary64 m (if s then Int.negOfNat e else Int.ofNat e))) := by
  rw [Float.ofScientific]
  split
  · rename_i hsmall
    obtain ⟨hm, he⟩ := hsmall
    left
    have hlt : m.toUInt64.toNat < 2 ^ 53 := by
      rw [Nat.toUInt64_eq, UInt64.toNat_ofNat']
      exact Nat.lt_of_le_of_lt (Nat.mod_le _ _) hm
    have hfinite := isFinite_mul_div (unpacked_toFloat hlt) (modest_powerOfTen ⟨e, by omega⟩)
    split
    · exact hfinite.2
    · exact hfinite.1
  · exact .inr rfl

end Doubles

open Doubles

/-- A natural number has no fewer digits than it needs. -/
theorem pow_digitCount_le {n : Nat} (h : n ≠ 0) : 10 ^ digitCount n ≤ 10 * n := by
  induction n using Nat.strongRecOn with
  | ind n ih =>
    rw [digitCount, if_neg h, Nat.pow_succ]
    by_cases hshort : n / 10 = 0
    · rw [hshort, digitCount, if_pos rfl]
      omega
    · have := ih (n / 10) (by omega) hshort
      omega

/-- A fraction that is less than half above an integer is not rounded beyond it. -/
theorem roundHalfEven_le {n d k : Nat} (h : 2 * n < (2 * k + 1) * d) : roundHalfEven n d ≤ k := by
  have hn := Nat.div_add_mod n d
  have hle : n / d ≤ k := by
    have hexpand : 2 * (d * (k + 1)) = (2 * k + 1) * d + d := by ring
    exact Nat.le_of_lt_succ (Nat.div_lt_of_lt_mul (show n < d * (k + 1) by omega))
  rcases Nat.lt_or_eq_of_le hle with hlt | heq
  · rw [roundHalfEven]
    split_ifs <;> omega
  · rw [heq] at hn
    have hexpand : (2 * k + 1) * d = 2 * (d * k) + d := by ring
    rw [roundHalfEven, if_pos (by omega), heq]

/-- A number before one and a half times a power of ten stays there when it is rounded at or behind the leading digit of that. -/
theorem roundHalfEven_mul_le {n d top : Nat} {e : Int} (h : n < 15 * 10 ^ top * d) (he : e ≤ top + 1) :
    roundHalfEven (n * 10 ^ (-e).toNat) (d * 10 ^ e.toNat) * 10 ^ e.toNat ≤ 15 * 10 ^ top * 10 ^ (-e).toNat := by
  have hscaled : 2 * (n * 10 ^ (-e).toNat) < 2 * (15 * 10 ^ top * d * 10 ^ (-e).toNat) :=
    Nat.mul_lt_mul_of_pos_left (Nat.mul_lt_mul_of_pos_right h (Nat.pow_pos (Nat.succ_pos 9))) Nat.two_pos
  by_cases hlow : e ≤ top
  · have hpow : 10 ^ (top - e).toNat * 10 ^ e.toNat = 10 ^ top * 10 ^ (-e).toNat := by
      rw [← Nat.pow_add, ← Nat.pow_add]
      congr 1
      omega
    have hrounded : roundHalfEven (n * 10 ^ (-e).toNat) (d * 10 ^ e.toNat) ≤ 15 * 10 ^ (top - e).toNat := by
      refine roundHalfEven_le (hscaled.trans_le ?_)
      calc 2 * (15 * 10 ^ top * d * 10 ^ (-e).toNat) = 30 * d * (10 ^ top * 10 ^ (-e).toNat) := by ring
        _ = 2 * (15 * 10 ^ (top - e).toNat) * (d * 10 ^ e.toNat) := by rw [← hpow]; ring
        _ ≤ (2 * (15 * 10 ^ (top - e).toNat) + 1) * (d * 10 ^ e.toNat) := Nat.mul_le_mul_right _ (Nat.le_succ _)
    calc roundHalfEven (n * 10 ^ (-e).toNat) (d * 10 ^ e.toNat) * 10 ^ e.toNat
        ≤ 15 * 10 ^ (top - e).toNat * 10 ^ e.toNat := Nat.mul_le_mul_right _ hrounded
      _ = 15 * 10 ^ top * 10 ^ (-e).toNat := by rw [Nat.mul_assoc, hpow, Nat.mul_assoc]
  · have hexponent : e.toNat = top + 1 := by omega
    have hneg : (-e).toNat = 0 := by omega
    have hrounded : roundHalfEven (n * 10 ^ (-e).toNat) (d * 10 ^ e.toNat) ≤ 1 := by
      refine roundHalfEven_le (hscaled.trans_le ?_)
      rw [hexponent, hneg, Nat.pow_succ]
      exact Nat.le_of_eq (by ring)
    calc roundHalfEven (n * 10 ^ (-e).toNat) (d * 10 ^ e.toNat) * 10 ^ e.toNat ≤ 1 * 10 ^ e.toNat := Nat.mul_le_mul_right _ hrounded
      _ ≤ 15 * 10 ^ top * 10 ^ (-e).toNat := by
        rw [hexponent, hneg, Nat.pow_succ]
        omega

/-- A fraction below a power of ten has a smaller leading exponent. -/
theorem leadingExponent_le {n d k : Nat} (h : n < 10 ^ (k + 1) * d) : leadingExponent n d ≤ k := by
  rw [leadingExponent]
  split
  · rename_i hle
    have hd : 0 < d := Nat.pos_of_ne_zero fun hzero => by simp [hzero] at h
    have hquotient : n / d < 10 ^ (k + 1) := (Nat.div_lt_iff_lt_mul hd).2 h
    have hpow : 10 ^ digitCount (n / d) < 10 ^ (k + 1 + 1) := by
      refine Nat.lt_of_le_of_lt (pow_digitCount_le (Nat.ne_of_gt (Nat.div_pos hle hd))) ?_
      rw [Nat.pow_succ']
      exact Nat.mul_lt_mul_of_pos_left hquotient (Nat.succ_pos 9)
    have := (Nat.pow_lt_pow_iff_right (by decide)).1 hpow
    omega
  · omega

namespace Decimal

theorem exponent_eq (e : Int) : (if decide (e < 0) then Int.negOfNat e.natAbs else Int.ofNat e.natAbs) = e := by
  by_cases he : e < 0
  · rw [if_pos (by simpa using he), Int.negOfNat_eq]
    simp only [Int.ofNat_eq_natCast]
    omega
  · rw [if_neg (by simpa using he)]
    simp only [Int.ofNat_eq_natCast]
    omega

/-- A decimal within the range of doubles has no leading digit beyond it. -/
theorem top_le {d : Decimal} {n : Nat} (hn : limit < 10 ^ n) (hzero : d.coefficient ≠ 0)
    (h : d.coefficient * 10 ^ d.exponent.toNat < limit * 10 ^ (-d.exponent).toNat) : (digitCount d.coefficient : Int) + d.exponent ≤ n := by
  have hpow : 10 ^ (digitCount d.coefficient + d.exponent.toNat) < 10 ^ (n + 1 + (-d.exponent).toNat) := by
    calc 10 ^ (digitCount d.coefficient + d.exponent.toNat)
        ≤ 10 * d.coefficient * 10 ^ d.exponent.toNat := by
          rw [Nat.pow_add]
          exact Nat.mul_le_mul_right _ (pow_digitCount_le hzero)
      _ = 10 * (d.coefficient * 10 ^ d.exponent.toNat) := Nat.mul_assoc ..
      _ < 10 * (limit * 10 ^ (-d.exponent).toNat) := Nat.mul_lt_mul_of_pos_left h (Nat.succ_pos 9)
      _ ≤ 10 ^ (n + 1 + (-d.exponent).toNat) := by
          rw [Nat.pow_add, Nat.pow_succ', ← Nat.mul_assoc]
          exact Nat.mul_le_mul_right _ (Nat.mul_le_mul_left 10 hn.le)
  have := (Nat.pow_lt_pow_iff_right (by decide)).1 hpow
  omega

/-- A decimal within the range of doubles is read as a finite double. -/
theorem isFinite_toFloat {d : Decimal} (h : d.coefficient * 10 ^ d.exponent.toNat < limit * 10 ^ (-d.exponent).toNat) :
    d.toFloat.isFinite = true := by
  have hsign : ∀ x : Float, x.isFinite = true → (if d.negative then -x else x).isFinite = true := by
    intro x hx
    split
    · exact isFinite_neg hx
    · exact hx
  apply hsign
  split_ifs with hzero hbig
  · decide
  · exact absurd (top_le (limit_lt (Nat.le_refl 309)) (fun heq => hzero (.inl heq)) h) (Int.not_le.2 hbig)
  · rcases ofScientific_cases d.coefficient (decide (d.exponent < 0)) d.exponent.natAbs with hfinite | heq
    · exact hfinite
    · rw [heq, exponent_eq]
      exact isFinite_pack (fits_ofScientific h)

/-- Every decimal is read as a number or an infinity. -/
theorem not_isNaN_toFloat (d : Decimal) : d.toFloat.isNaN = false := by
  have hsign : ∀ x : Float, x.isNaN = false → (if d.negative then -x else x).isNaN = false := by
    intro x hx
    split
    · exact isNaN_neg hx
    · exact hx
  apply hsign
  split_ifs
  · decide
  · decide
  · rcases ofScientific_cases d.coefficient (decide (d.exponent < 0)) d.exponent.natAbs with hfinite | heq
    · exact not_isNaN_of_isFinite hfinite
    · rw [heq]
      exact isNaN_pack (ofScientific_ne_notANumber _ _)

end Decimal

namespace Binary

/-- The greatest double. -/
@[irreducible] def greatest : Nat := (2 ^ 53 - 1) * 2 ^ 971

theorem greatest_lt_limit : greatest < limit := by decide +kernel

theorem numerator_le {x : Float} (h : x.isFinite = true) : (ofFloat x).numerator ≤ greatest := by
  have hfield := field_of_isFinite h
  have hlt : x.toBits.toNat / 0x10000000000000 % 2048 < 2048 := Nat.mod_lt _ (by decide)
  have hfraction : x.toBits.toNat % 0x10000000000000 < 2 ^ 52 := Nat.mod_lt _ (by decide)
  have hbound : ∀ s k, s ≤ 2 ^ 53 - 1 → k ≤ 971 → s * Nat.pow 2 k ≤ greatest := by
    intro s k hs hk
    unfold greatest
    exact Nat.mul_le_mul hs (Nat.pow_le_pow_right Nat.two_pos hk)
  rw [numerator, ofFloat]
  split
  · exact hbound _ _ (by simp only; omega) (by simp only; omega)
  · exact hbound _ _ (by simp only; omega) (by simp only [Int.ofNat_eq_natCast]; omega)

/-- Rounding a finite double to places leads to a finite double. -/
theorem isFinite_toPlaces {x : Float} (h : x.isFinite = true) (places : Nat) : ((ofFloat x).toPlaces places).toFloat.isFinite = true := by
  apply Decimal.isFinite_toFloat
  rw [toPlaces]
  generalize min places 1074 = k
  have hneg : (-(k : Int)).toNat = 0 := by omega
  have hrounded : roundHalfEven ((ofFloat x).numerator * 10 ^ k) (ofFloat x).denominator ≤ greatest * 10 ^ k := by
    apply roundHalfEven_le
    have hnumerator := Nat.mul_le_mul_right (10 ^ k) (numerator_le h)
    have hdenominator := Nat.le_mul_of_pos_right (2 * (greatest * 10 ^ k) + 1) (ofFloat x).denominator_pos
    omega
  simp only [scaled, Nat.pow_eq, Int.neg_neg, Int.toNat_natCast, hneg, Nat.pow_zero, Nat.mul_one]
  exact Nat.lt_of_le_of_lt hrounded (Nat.mul_lt_mul_of_pos_right greatest_lt_limit (Nat.pow_pos (Nat.succ_pos 9)))

/-- The end of the range of doubles: half as much again as the greatest power of ten in it. -/
@[irreducible] def edge : Nat := 15 * 10 ^ 307

theorem edge_lt_limit : edge < limit := by decide +kernel

/-- A magnitude no less than the edge of the range. -/
def NearEdge (b : Binary) : Prop := edge * b.denominator ≤ b.numerator

/-- Rounding a number before the edge to significant digits leads to a finite double. -/
theorem isFinite_toSignificant {b : Binary} (h : ¬ b.NearEdge) (digits : Nat) : (b.toSignificant digits).toFloat.isFinite = true := by
  apply Decimal.isFinite_toFloat
  rw [NearEdge, Nat.not_le] at h
  rw [toSignificant]
  have hdigits : 1 ≤ max 1 (min digits 800) := Nat.le_max_left _ _
  generalize max 1 (min digits 800) = count at hdigits
  have hleading : leadingExponent b.numerator b.denominator ≤ 308 := by
    refine leadingExponent_le (k := 308) (h.trans ?_)
    exact Nat.mul_lt_mul_of_pos_right (edge_lt_limit.trans (limit_lt (Nat.le_refl _))) b.denominator_pos
  have he : b.lastExponent count ≤ 308 := by
    rw [lastExponent]
    omega
  generalize b.lastExponent count = e at he
  have hrounded : roundHalfEven (b.scaled e).1 (b.scaled e).2 * 10 ^ e.toNat ≤ edge * 10 ^ (-e).toNat := by
    unfold edge at h ⊢
    exact roundHalfEven_mul_le h (by omega)
  exact Nat.lt_of_le_of_lt hrounded (Nat.mul_lt_mul_of_pos_right edge_lt_limit (Nat.pow_pos (Nat.succ_pos 9)))

end Binary

end FormulaDag
