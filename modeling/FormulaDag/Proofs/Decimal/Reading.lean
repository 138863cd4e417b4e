import FormulaDag.Proofs.Decimal.Rounding

/-!
# Decimals are read as the nearest doubles

A decimal within the range of doubles is rounded once from its exact magnitude, whether it is read by way of two exact doubles or of the
exact fraction. So what it is read as depends on its sign and its magnitude only, and a decimal whose distance to a double is less than
that double shifted by 54 bits is read as that double.
-/

namespace FormulaDag

namespace Doubles

open Float.Model Float.Model.UnpackedFloat

/-! ## Exact powers of ten -/

/-- Whether a number with 53 bits is a power of ten. -/
def IsPowerOfTen (n : Nat) : UnpackedFloat → Bool
  | .finite .positive m e _ => 2 ^ 52 ≤ m && m * 2 ^ e.toNat = 10 ^ n * 2 ^ (-e).toNat
  | _ => false

theorem isPowerOfTen_unpack : ∀ n : Fin 23, IsPowerOfTen n (Float.exactlyRepresentablePowersOfTen[n]).toModel.unpack = true := by
  decide +kernel

theorem exists_of_isPowerOfTen {n : Nat} {f : UnpackedFloat} (h : IsPowerOfTen n f = true) :
    ∃ m e hm, f = .finite .positive m e hm ∧ 2 ^ 52 ≤ m ∧ (m : ℚ) * 2 ^ e = 10 ^ n := by
  unfold IsPowerOfTen at h
  split at h
  · rename_i m e hm
    rw [Bool.and_eq_true, decide_eq_true_eq, decide_eq_true_eq] at h
    have hcast : (m : ℚ) * 2 ^ e.toNat = 10 ^ n * 2 ^ (-e).toNat := by exact_mod_cast h.2
    refine ⟨m, e, hm, rfl, h.1, ?_⟩
    rw [Binary.zpow_eq_div, ← mul_div_assoc, hcast, mul_div_cancel_right₀ _ (pow_ne_zero _ two_ne_zero)]
  · exact (Bool.false_ne_true h).elim

/-- The product and the quotient of two positive doubles are rounded once. -/
theorem exists_rounds_mul_div {x y : Float} {m₁ m₂ : Nat} {e₁ e₂ : Int} {h₁ : 0 < m₁} {h₂ : 0 < m₂}
    (hx : x.toModel.unpack = .finite .positive m₁ e₁ h₁) (hy : y.toModel.unpack = .finite .positive m₂ e₂ h₂) (hwide : 2 ^ 52 ≤ m₁) :
    (∃ f, Rounds .positive (m₁ * 2 ^ e₁ * (m₂ * 2 ^ e₂)) f ∧ x * y = .ofModel (.pack f)) ∧
      ∃ f, Rounds .positive (m₁ * 2 ^ e₁ / (m₂ * 2 ^ e₂)) f ∧ x / y = .ofModel (.pack f) := by
  have hmul : x * y = .ofModel (.pack (UnpackedFloat.mul Format.binary64 x.toModel.unpack y.toModel.unpack)) := rfl
  have hdiv : x / y = .ofModel (.pack (UnpackedFloat.div Format.binary64 x.toModel.unpack y.toModel.unpack)) := rfl
  rw [hmul, hdiv, hx, hy]
  refine ⟨⟨_, ?_, rfl⟩, _, ?_, rfl⟩
  · exact rounds_mul h₁ h₂ (hwide.trans (Nat.le_mul_of_pos_right _ h₂))
  · exact rounds_div h₁ h₂

/-- What is read from digits and an exponent that is not extreme is rounded once. -/
theorem exists_rounds_ofScientific {m : Nat} {e : Int} (hm : m ≠ 0) (hlow : -(2048 + m.log2 : Int) ≤ e) (hhigh : e ≤ 2048) :
    ∃ f, Rounds .positive (m * 10 ^ e) f ∧ Float.ofScientific m (decide (e < 0)) e.natAbs = .ofModel (.pack f) := by
  rw [Float.ofScientific]
  split
  · rename_i hsmall
    obtain ⟨hlt, he⟩ := hsmall
    have htoNat : m.toUInt64.toNat = m := by
      rw [Nat.toUInt64_eq, UInt64.toNat_ofNat', Nat.mod_eq_of_lt (by omega)]
    obtain ⟨hpos, hx⟩ := unpack_toFloat (n := m.toUInt64) (by rwa [htoNat]) (by rwa [htoNat])
    obtain ⟨m', e', hm', hy, hwide, hpower⟩ := exists_of_isPowerOfTen (isPowerOfTen_unpack ⟨e.natAbs, by omega⟩)
    have hvalue : ((m.toUInt64.toNat * 2 ^ (52 - m.toUInt64.toNat.log2) : Nat) : ℚ) *
        2 ^ (-(52 - m.toUInt64.toNat.log2 : Nat) : Int) = m := by
      rw [htoNat, zpow_neg, zpow_natCast, Nat.cast_mul, Nat.cast_pow, Nat.cast_ofNat, mul_assoc,
        mul_inv_cancel₀ (pow_ne_zero _ two_ne_zero), mul_one]
    have hmantissa := (shifted_bounds (n := m.toUInt64.toNat) (by rwa [htoNat]) (by rwa [htoNat])).1
    obtain ⟨hmul, hdiv⟩ := exists_rounds_mul_div hx hy hmantissa
    rw [hvalue, hpower] at hmul hdiv
    by_cases hsign : e < 0
    · have hpow : (m : ℚ) * 10 ^ e = m / 10 ^ e.natAbs := by
        rw [show e = -(e.natAbs : Int) by omega, zpow_neg, zpow_natCast, Int.natAbs_neg, Int.natAbs_natCast, div_eq_mul_inv]
      rw [hpow, if_pos (decide_eq_true hsign)]
      exact hdiv
    · have hpow : (m : ℚ) * 10 ^ e = m * 10 ^ e.natAbs := by
        rw [← zpow_natCast, Int.natAbs_of_nonneg (not_lt.1 hsign)]
      rw [hpow, if_neg (by simpa using hsign)]
      exact hmul
  · exact ⟨_, rounds_ofScientific hm hlow hhigh, congrArg (fun e => Float.ofModel (.pack (UnpackedFloat.ofScientific Format.binary64 m e)))
      (Decimal.exponent_eq e)⟩

/-! ## Numbers close to a double -/

/-- A number is rounded to the double that it is closer to than a quarter of the last bit. -/
theorem rounds_of_near (sign : Sign) {m : Nat} {e : Int} (h : Canonical m e) {x : ℚ} (hx : |x - m * 2 ^ e| * 2 ^ 54 < m * 2 ^ e) :
    Rounds sign x (.finite sign m e h.pos) := by
  obtain ⟨hm, hwidth, hlow, hhigh, hfull⟩ := h
  have htwo : (0 : ℚ) < 2 ^ e := zpow_pos two_pos e
  have hle : (m : ℚ) + 1 ≤ 2 ^ 53 := by exact_mod_cast hwidth
  obtain ⟨t, rfl⟩ : ∃ t, x = t * 2 ^ e := ⟨x / 2 ^ e, (div_mul_cancel₀ _ htwo.ne').symm⟩
  have hnear : |t - m| * 2 ^ 54 < m := by
    rw [← sub_mul, abs_mul, abs_of_pos htwo, mul_right_comm] at hx
    exact lt_of_mul_lt_mul_right hx htwo.le
  have hhalf : |t - m| < 1 / 2 := by linarith
  obtain ⟨hleft, hright⟩ := abs_lt.1 hhalf
  have hlog : ∀ n : Nat, (2 : ℚ) ^ n ≤ t → t < 2 ^ (n + 1) → Int.log 2 (t * 2 ^ e) = n + e := fun n hn hn' => by
    exact_mod_cast log_mul_zpow (by decide : 1 < 2) (by exact_mod_cast hn) (by exact_mod_cast hn') e
  have hsame : unit (t * 2 ^ e) = e → Rounds sign (t * 2 ^ e) (.finite sign m e hm) := by
    intro hunit
    refine ⟨m, .inl ?_, ?_⟩
    · rwa [hunit, mul_div_cancel_right₀ _ htwo.ne']
    · rw [hunit, carried, if_neg (by omega), dif_neg hm.ne']
  by_cases hbelow : t < 2 ^ 52
  · by_cases hfloor : e = -1074
    · apply hsame
      have hone : (1 : ℚ) ≤ m := by exact_mod_cast hm
      have hpos : 0 < t * 2 ^ e := mul_pos (by linarith) htwo
      have hsmall : Int.log 2 (t * 2 ^ e) < (52 : Nat) + e := by
        rw [← Int.lt_zpow_iff_log_lt (by decide) hpos, Nat.cast_ofNat, zpow_add₀ two_ne_zero, zpow_natCast]
        exact mul_lt_mul_of_pos_right hbelow htwo
      rw [unit]
      omega
    · -- the double is the power of two that the number is below, and the units of the number are half as large
      have hfull : (2 : ℚ) ^ 52 ≤ m := by exact_mod_cast hfull.resolve_left hfloor
      have hmantissa : m = 2 ^ 52 := by
        have hlt : (m : ℚ) < (2 ^ 52 + 1 : Nat) := by
          push_cast
          linarith
        have hlt := Nat.cast_lt.1 hlt
        have hge : 2 ^ 52 ≤ m := by exact_mod_cast hfull
        omega
      have hunit : unit (t * 2 ^ e) = e - 1 := by
        rw [unit, hlog 51 (by linarith) hbelow]
        omega
      refine ⟨2 ^ 53, .inl ?_, ?_⟩
      · have hcast : (m : ℚ) = 2 ^ 52 := by exact_mod_cast hmantissa
        have hdouble : t * 2 ^ e / 2 ^ (e - 1) = 2 * t := by
          rw [zpow_sub_one₀ two_ne_zero]
          field_simp
        have hdistance : 2 * t - (2 ^ 53 : Nat) = 2 * (t - m) := by
          rw [hcast]
          push_cast
          ring
        rw [hunit, hdouble, hdistance, abs_mul, abs_two]
        linarith
      · rw [hunit, carried, if_pos rfl]
        exact finite_congr hmantissa (by omega)
  · apply hsame
    rw [unit, hlog 52 (not_lt.1 hbelow) (show t < 2 ^ 53 by linarith)]
    omega

end Doubles

namespace Decimal

open Doubles

/-- The place of the leading digit, counted from the point. -/
def top (d : Decimal) : Int := digitCount d.coefficient + d.exponent

/-- What a decimal is read as without its sign. -/
def unsigned (d : Decimal) : Float :=
  if d.coefficient = 0 ∨ d.top < -324 then 0.0
  else if 309 < d.top then 1.0 / 0.0
  else Float.ofScientific d.coefficient (decide (d.exponent < 0)) d.exponent.natAbs

theorem toFloat_eq (d : Decimal) : d.toFloat = if d.negative then -d.unsigned else d.unsigned := rfl

theorem magnitude_eq_zero {d : Decimal} : d.magnitude = 0 ↔ d.coefficient = 0 := by
  rw [magnitude, mul_eq_zero, Nat.cast_eq_zero, or_iff_left (zpow_ne_zero _ (by norm_num))]

/-- The leading digit is between two powers of ten. -/
theorem exists_digitCount {n : Nat} (h : n ≠ 0) : ∃ k, digitCount n = k + 1 ∧ 10 ^ k ≤ n ∧ n < 10 ^ (k + 1) := by
  have hlow := pow_digitCount_le h
  have hhigh := lt_pow_digitCount n
  obtain ⟨k, hk⟩ : ∃ k, digitCount n = k + 1 := Nat.exists_eq_succ_of_ne_zero fun hzero => by
    rw [hzero] at hhigh
    omega
  rw [hk] at hlow hhigh
  exact ⟨k, hk, by rw [Nat.pow_succ] at hlow; omega, hhigh⟩

/-- The place of the leading digit is that of the magnitude. -/
theorem log_magnitude {d : Decimal} (h : d.coefficient ≠ 0) : Int.log 10 d.magnitude = d.top - 1 := by
  obtain ⟨k, hk, hlow, hhigh⟩ := exists_digitCount h
  have hlog := log_mul_zpow (b := 10) (n := k) (x := d.coefficient) (by decide) (by exact_mod_cast hlow) (by exact_mod_cast hhigh) d.exponent
  rw [Nat.cast_ofNat] at hlog
  rw [magnitude, hlog, top, hk]
  omega

/-- A decimal within the range of doubles is rounded once. -/
theorem exists_rounds_unsigned {d : Decimal} (h : d.coefficient ≠ 0) (hlow : -324 ≤ d.top) (hhigh : d.top ≤ 309) :
    ∃ f, Rounds .positive d.magnitude f ∧ d.unsigned = .ofModel (.pack f) := by
  obtain ⟨k, hk, hdigits, -⟩ := exists_digitCount h
  have hlog : k ≤ d.coefficient.log2 := (Nat.le_log2 h).2 ((Nat.pow_le_pow_left (by decide) k).trans hdigits)
  rw [top, hk] at hlow hhigh
  rw [unsigned, top, hk, if_neg (by omega), if_neg (by omega)]
  exact exists_rounds_ofScientific h (by omega) (by omega)

/-- What a decimal is read as depends on its sign and its magnitude only. -/
theorem toFloat_congr {d d' : Decimal} (hnegative : d.negative = d'.negative) (h : d.magnitude = d'.magnitude) :
    d.toFloat = d'.toFloat := by
  suffices hunsigned : d.unsigned = d'.unsigned by rw [toFloat_eq, toFloat_eq, hnegative, hunsigned]
  have hcoefficient : d.coefficient = 0 ↔ d'.coefficient = 0 := by rw [← magnitude_eq_zero, ← magnitude_eq_zero, h]
  by_cases hzero : d.coefficient = 0
  · rw [unsigned, unsigned, if_pos (.inl hzero), if_pos (.inl (hcoefficient.1 hzero))]
  · have hzero' := mt hcoefficient.2 hzero
    have htop : d.top = d'.top := by
      have hlog := log_magnitude hzero
      rw [h, log_magnitude hzero'] at hlog
      omega
    rcases lt_or_ge d.top (-324) with hsmall | hlow
    · rw [unsigned, unsigned, if_pos (.inr hsmall), if_pos (.inr (htop ▸ hsmall))]
    · rcases lt_or_ge 309 d.top with hbig | hhigh
      · rw [unsigned, if_neg (by omega), if_pos hbig, unsigned, if_neg (by omega), if_pos (htop ▸ hbig)]
      · obtain ⟨f, hf, heq⟩ := exists_rounds_unsigned hzero hlow hhigh
        obtain ⟨g, hg, heq'⟩ := exists_rounds_unsigned hzero' (htop ▸ hlow) (htop ▸ hhigh)
        rw [heq, heq', hf.unique (h ▸ hg)]

theorem two_pow_le_ten_pow {n k : Nat} (h : 2 ^ n ≤ 10 ^ k) : (2 : ℚ) ^ n ≤ 10 ^ k := by exact_mod_cast h

/-- Half of the smallest double is no less than a power of ten. -/
theorem ten_pow_le {m : Nat} {e : Int} (hm : 0 < m) (he : -1074 ≤ e) : (10 : ℚ) ^ (-(324 : Nat) : Int) ≤ m * 2 ^ e / 2 := by
  have hone : (1 : ℚ) ≤ m := by exact_mod_cast hm
  have hpow : (2 : ℚ) ^ 1075 ≤ 10 ^ 324 := two_pow_le_ten_pow (by decide +kernel)
  calc (10 : ℚ) ^ (-(324 : Nat) : Int) = (10 ^ 324)⁻¹ := by rw [zpow_neg, zpow_natCast]
    _ ≤ (2 ^ 1075)⁻¹ := inv_anti₀ (pow_pos two_pos _) hpow
    _ = 2 ^ (-(1075 : Nat) : Int) := by rw [zpow_neg, zpow_natCast]
    _ ≤ 2 ^ (e - 1) := zpow_le_zpow_right₀ one_le_two (by omega)
    _ = 1 * 2 ^ e / 2 := by rw [zpow_sub_one₀ two_ne_zero, one_mul, div_eq_mul_inv]
    _ ≤ m * 2 ^ e / 2 := by gcongr

/-- Twice the greatest double is less than a power of ten. -/
theorem lt_ten_pow {m : Nat} {e : Int} (hm : m < 2 ^ 53) (he : e ≤ 971) : m * 2 ^ e * 2 < (10 : ℚ) ^ ((309 : Nat) : Int) := by
  have hwidth : (m : ℚ) < 2 ^ (53 : Int) := by exact_mod_cast hm
  have hpow : (2 : ℚ) ^ 1025 ≤ 10 ^ 309 := two_pow_le_ten_pow (by decide +kernel)
  calc (m : ℚ) * 2 ^ e * 2 < 2 ^ (53 : Int) * 2 ^ e * 2 := by gcongr
    _ = 2 ^ (53 + e + 1) := by rw [zpow_add_one₀ two_ne_zero, zpow_add₀ two_ne_zero]
    _ ≤ 2 ^ ((1025 : Nat) : Int) := zpow_le_zpow_right₀ one_le_two (by omega)
    _ ≤ 10 ^ ((309 : Nat) : Int) := by rwa [zpow_natCast, zpow_natCast]

/-- A decimal close enough to a double is read as that double. -/
theorem toFloat_of_near {x : Float} (hx : x.isFinite = true) (hzero : (x == 0.0) = false) {d : Decimal}
    (hnegative : d.negative = (Binary.ofFloat x).negative)
    (hnear : |d.magnitude - (Binary.ofFloat x).magnitude| * 2 ^ 54 < (Binary.ofFloat x).magnitude) : d.toFloat = x := by
  obtain ⟨sign, m, e, hcanonical, hpack, hexact⟩ := exists_canonical hx hzero
  rw [hexact] at hnegative hnear
  change |d.magnitude - m * 2 ^ e| * 2 ^ 54 < m * 2 ^ e at hnear
  have hlow := ten_pow_le hcanonical.pos hcanonical.exponent_ge
  have hhigh := lt_ten_pow hcanonical.lt_width hcanonical.exponent_le
  have hhalf : m * 2 ^ e / 2 < d.magnitude ∧ d.magnitude < m * 2 ^ e * 2 := by
    have hdistance := abs_le.1 (le_refl |d.magnitude - m * 2 ^ e|)
    constructor <;> linarith
  have hpos : 0 < d.magnitude := by
    have htwo : (0 : ℚ) < 2 ^ e := zpow_pos two_pos e
    have hm : (0 : ℚ) < m := by exact_mod_cast hcanonical.pos
    linarith [mul_pos hm htwo]
  have hcoefficient : d.coefficient ≠ 0 := fun hnone => hpos.ne' (magnitude_eq_zero.2 hnone)
  have htop : -(324 : Nat) ≤ Int.log 10 d.magnitude ∧ Int.log 10 d.magnitude < (309 : Nat) := by
    rw [← Int.zpow_le_iff_le_log (by decide) hpos, ← Int.lt_zpow_iff_log_lt (by decide) hpos, Nat.cast_ofNat]
    exact ⟨hlow.trans hhalf.1.le, hhalf.2.trans hhigh⟩
  rw [log_magnitude hcoefficient] at htop
  obtain ⟨f, hf, hread⟩ := exists_rounds_unsigned hcoefficient (by omega) (by omega)
  rw [toFloat_eq, hread, hf.unique (rounds_of_near .positive hcanonical hnear), hnegative, hpack]
  cases sign with
  | negative => exact neg_pack_finite .positive hcanonical
  | positive => rfl

/-! ## No double is nearer -/

/-- The exact value of what a rounded number is packed as, when that is finite. -/
theorem magnitude_of_rounds {x : ℚ} (hx : 0 < x) {f : Float.Model.UnpackedFloat} (hf : Rounds .positive x f) (negative : Bool)
    (hfinite : (if negative then -Float.ofModel (.pack f) else .ofModel (.pack f)).isFinite = true) :
    (Binary.ofFloat (if negative then -Float.ofModel (.pack f) else .ofModel (.pack f))).magnitude = size f := by
  rcases hf.canonical hx with rfl | ⟨m, e, hm, rfl, hcanonical⟩
  · have hzero : ∀ negative : Bool, (Binary.ofFloat (if negative then -Float.ofModel (.pack (.zero .positive)) else
        .ofModel (.pack (.zero .positive)))).significand = 0 := by decide +kernel
    rw [Binary.magnitude, hzero, Nat.cast_zero, zero_mul]
    rfl
  · rcases le_or_gt e 971 with he | he
    · have hopposite := neg_pack_finite .positive (hcanonical he)
      cases negative with
      | true =>
        rw [if_pos rfl, hopposite, ofFloat_pack_finite _ (hcanonical he)]
        rfl
      | false =>
        rw [if_neg Bool.false_ne_true, ofFloat_pack_finite _ (hcanonical he)]
        rfl
    · have hinfinite : ∀ negative : Bool, (if negative then -Float.ofModel (.pack (.infinity .positive)) else
          .ofModel (.pack (.infinity .positive))).isFinite = false := by decide +kernel
      rw [pack_of_exponent_gt .positive hm he, hinfinite] at hfinite
      exact (Bool.false_ne_true hfinite).elim

theorem magnitude_nonneg (d : Decimal) : 0 ≤ d.magnitude := mul_nonneg (Nat.cast_nonneg _) (zpow_nonneg (by norm_num) _)

/-- No double is nearer to a decimal than the one that it is read as. -/
theorem abs_sub_toFloat_le {d : Decimal} (hd : d.toFloat.isFinite = true) (y : Float) :
    |d.magnitude - (Binary.ofFloat d.toFloat).magnitude| ≤ |d.magnitude - (Binary.ofFloat y).magnitude| := by
  obtain ⟨hwidth, hexponent⟩ := Binary.ofFloat_bounds y
  generalize Binary.ofFloat y = b at hwidth hexponent
  have hzero : d.unsigned = 0.0 → (Binary.ofFloat d.toFloat).magnitude = 0 := by
    intro hread
    have hnone : ∀ negative : Bool, (Binary.ofFloat (if negative then -0.0 else 0.0)).significand = 0 := by decide +kernel
    rw [toFloat_eq, hread, Binary.magnitude, hnone, Nat.cast_zero, zero_mul]
  by_cases hnone : d.coefficient = 0
  · rw [hzero (if_pos (.inl hnone)), magnitude_eq_zero.2 hnone, sub_zero, abs_zero]
    exact abs_nonneg _
  have hpos : 0 < d.magnitude := lt_of_le_of_ne d.magnitude_nonneg fun h => hnone (magnitude_eq_zero.1 h.symm)
  rcases lt_or_ge d.top (-324) with hlow | hlow
  · -- a decimal below all powers of two is nearer to zero than to any other double
    rw [hzero (if_pos (.inr hlow)), sub_zero, abs_of_pos hpos]
    by_cases hb : b.significand = 0
    · rw [Binary.magnitude, hb, Nat.cast_zero, zero_mul, sub_zero]
      exact le_abs_self _
    · have hsmallest := ten_pow_le (Nat.pos_of_ne_zero hb) hexponent
      have hlog : Int.log 10 d.magnitude < -(324 : Nat) := by
        rw [log_magnitude hnone]
        omega
      rw [← Int.lt_zpow_iff_log_lt (by decide) hpos, Nat.cast_ofNat] at hlog
      rw [abs_sub_comm, Binary.magnitude]
      refine le_trans ?_ (le_abs_self _)
      linarith [hlog.trans_le hsmallest]
  · rcases lt_or_ge 309 d.top with hbig | hhigh
    · have hinfinite : ∀ negative : Bool, (if negative then -(1.0 / 0.0 : Float) else 1.0 / 0.0).isFinite = false := by decide +kernel
      have hread : d.unsigned = 1.0 / 0.0 := by rw [unsigned, if_neg (by omega), if_pos hbig]
      rw [toFloat_eq, hread, hinfinite] at hd
      exact (Bool.false_ne_true hd).elim
    · obtain ⟨f, hf, heq⟩ := exists_rounds_unsigned hnone hlow hhigh
      rw [toFloat_eq, heq] at hd ⊢
      rw [magnitude_of_rounds hpos hf d.negative hd]
      exact hf.abs_sub_le hpos hwidth hexponent

end Decimal

end FormulaDag
