import FormulaDag.Proofs.Decimal.Packing
import FormulaDag.Proofs.Decimal.Range

/-!
# Rounding does not reach zero

A number above half of the smallest double is not rounded to zero. So neither is a finite double that is not zero when it is rounded to
significant digits: what remains is more than half of it.
-/

namespace FormulaDag

namespace Doubles

open Float.Model Float.Model.UnpackedFloat

/-! ## Rounding to the format -/

/-- Four times an extended mantissa: the mantissa with the bit behind it and a bit for whatever follows. -/
def quarters (em : ExtendedMantissa) : Nat := 2 * halves em + em.stickyBit.toNat

/-- Shifting keeps a mantissa above or not above half a unit. -/
theorem lt_quarters_shiftRight (em : ExtendedMantissa) (n k : Nat) :
    2 * 2 ^ k < quarters (em >>> n) ↔ 2 * 2 ^ (k + n) < quarters em := by
  have hone : ∀ (em : ExtendedMantissa) k, 2 * 2 ^ k < quarters em.shiftRightOne ↔ 2 * 2 ^ (k + 1) < quarters em := by
    intro em k
    have hmod : (em.mantissa % 2 != 0).toNat = em.mantissa % 2 := by
      rcases Nat.mod_two_eq_zero_or_one em.mantissa with h | h <;> simp [h]
    obtain ⟨m, round, sticky⟩ := em
    simp only at hmod
    rw [Nat.pow_succ]
    simp only [quarters, halves, ExtendedMantissa.shiftRightOne, hmod]
    cases round <;> cases sticky <;> simp only [Bool.toNat_true, Bool.toNat_false, Bool.or_true, Bool.or_false] <;> omega
  induction n generalizing k with
  | zero => rfl
  | succ n ih =>
    have hshift := ih (k + 1)
    rw [Nat.add_assoc, Nat.add_comm 1 n] at hshift
    exact (hone (em >>> n) k).trans hshift

theorem roundedMantissa_pos {em : ExtendedMantissa} (h : 2 < quarters em) : 0 < em.roundedMantissa := by
  obtain ⟨m, round, sticky⟩ := em
  cases round <;> cases sticky <;>
    simp only [quarters, halves, Bool.toNat_true, Bool.toNat_false] at h <;>
    simp only [ExtendedMantissa.roundedMantissa, ExtendedMantissa.accuracy, Accuracy.roundToNearestEven] <;> omega

theorem mantissa_shiftRight (em : ExtendedMantissa) (n : Nat) : (em >>> n).mantissa = em.mantissa / 2 ^ n := by
  rw [← halves_div_two, ← halves_div_two em, halves_shiftRight, Nat.div_div_eq_div_mul, Nat.div_div_eq_div_mul, Nat.mul_comm]

/-- What is not zero, and not beyond the format on the small side. -/
def Regular : UnpackedFloat → Prop
  | .zero _ => False
  | .finite _ m e _ => m < 2 ^ 53 ∧ -1074 ≤ e
  | _ => True

/-- A mantissa that is shifted for the format fills it and does not vanish. -/
theorem div_two_pow_bounds {m : Nat} {e : Int} (hm : 0 < m) (he : -1074 ≤ e) :
    0 < m / 2 ^ (Format.binary64.targetExponent (totalExponent m e) - e).toNat ∧
      m / 2 ^ (Format.binary64.targetExponent (totalExponent m e) - e).toNat < 2 ^ 53 := by
  have hle := Nat.log2_self_le hm.ne'
  have hlt := Nat.lt_log2_self (n := m)
  rw [targetExponent_eq, totalExponent, show (max ((m.log2 : Int) + 1 + e - 53) (-1074) - e).toNat = m.log2 - 52 by omega]
  constructor
  · exact Nat.div_pos ((Nat.pow_le_pow_right Nat.two_pos (Nat.sub_le _ _)).trans hle) (Nat.two_pow_pos _)
  · rw [Nat.div_lt_iff_lt_mul (Nat.two_pow_pos _), ← Nat.pow_add]
    exact hlt.trans_le (Nat.pow_le_pow_right Nat.two_pos (by omega))

/-- What is above half of the smallest double is above half of the unit that it is rounded to. -/
theorem lt_quarters_target {m : Nat} {e : Int} {accuracy : Accuracy}
    (h : 2 * 2 ^ (-1074 - e).toNat < quarters (ExtendedMantissa.ofMantissaAndAccuracy m accuracy)) :
    2 * 2 ^ (Format.binary64.targetExponent (totalExponent m e) - e).toNat <
      quarters (ExtendedMantissa.ofMantissaAndAccuracy m accuracy) := by
  rw [targetExponent_eq, totalExponent]
  by_cases hsmall : (m.log2 : Int) + 1 + e - 53 ≤ -1074 ∨ m.log2 ≤ 52
  · rw [show (max ((m.log2 : Int) + 1 + e - 53) (-1074) - e).toNat = (-1074 - e).toNat by omega]
    exact h
  · have hm : m ≠ 0 := fun hzero => by simp [hzero] at hsmall
    rw [show (max ((m.log2 : Int) + 1 + e - 53) (-1074) - e).toNat = m.log2 - 52 by omega]
    calc 2 * 2 ^ (m.log2 - 52) ≤ 2 * 2 ^ m.log2 := Nat.mul_le_mul_left 2 (Nat.pow_le_pow_right Nat.two_pos (Nat.sub_le _ _))
      _ ≤ 2 * m := Nat.mul_le_mul_left 2 (Nat.log2_self_le hm)
      _ < quarters (ExtendedMantissa.ofMantissaAndAccuracy m accuracy) := by
        rw [quarters, halves, mantissa_ofMantissaAndAccuracy]
        omega

/-- A number above half of the smallest double is not rounded to zero. -/
theorem regular_roundWithAccuracy {sign : Sign} {m : Nat} {e : Int} {accuracy : Accuracy}
    (h : 2 * 2 ^ (-1074 - e).toNat < quarters (ExtendedMantissa.ofMantissaAndAccuracy m accuracy)) :
    Regular (roundWithAccuracy Format.binary64 sign m e accuracy) := by
  have hshift := lt_quarters_target h
  have htarget : -1074 ≤ e + (Format.binary64.targetExponent (totalExponent m e) - e).toNat := by
    rw [targetExponent_eq, totalExponent]
    omega
  rw [roundWithAccuracy, shiftToTargetExponent, shiftToExponent]
  simp only [shiftToTargetExponent, shiftToExponent, mantissa_shiftRight, mantissa_ofMantissaAndAccuracy]
  generalize (Format.binary64.targetExponent (totalExponent m e) - e).toNat = n at hshift htarget
  have hpos := roundedMantissa_pos ((lt_quarters_shiftRight _ n 0).2 (by rwa [Nat.zero_add]))
  obtain ⟨hpositive, hlt⟩ := div_two_pow_bounds hpos htarget
  rw [dif_neg hpositive.ne']
  exact ⟨hlt, by omega⟩

/-- A mantissa of 53 bits is kept as it is. -/
theorem roundWithAccuracy_exact {sign : Sign} {m : Nat} {e : Int} (hm : 0 < m) (hlow : 2 ^ 52 ≤ m) (hhigh : m < 2 ^ 53)
    (he : -1074 ≤ e) : roundWithAccuracy Format.binary64 sign m e .exact = .finite sign m e hm := by
  have htarget : Format.binary64.targetExponent (totalExponent m e) - e = 0 := by
    rw [targetExponent_eq, totalExponent, log2_eq_of_width hlow hhigh]
    omega
  have hshift : ∀ em : ExtendedMantissa, em >>> 0 = em := fun _ => rfl
  simp [roundWithAccuracy, shiftToTargetExponent, shiftToExponent, htarget, hshift, ExtendedMantissa.ofMantissaAndAccuracy,
    ExtendedMantissa.roundedMantissa, ExtendedMantissa.accuracy, Accuracy.roundToNearestEven, hm.ne']

/-! ## Bits that are not those of a zero -/

/-- A double that is neither the positive nor the negative zero. -/
def Nonzero (x : Float) : Prop := ∀ sign, x.toModel.unpack ≠ .zero sign

/-- Bits of a zero have no exponent and no mantissa. -/
theorem unpack_ne_zero {bits : BitVec 64} (h : @unpackExponent .binary64 bits = 0 → @unpackMantissa .binary64 bits ≠ 0) (sign : Sign) :
    UnpackedFloat.unpack Format.binary64 bits ≠ .zero sign := by
  rw [UnpackedFloat.unpack]
  simp only
  split_ifs with hgreatest hinfinity hexponent hmantissa
  · exact UnpackedFloat.noConfusion
  · exact UnpackedFloat.noConfusion
  · exact absurd hmantissa (h hexponent)
  · exact UnpackedFloat.noConfusion
  · exact UnpackedFloat.noConfusion

theorem unpack_packComponents_ne_zero {exponent : BitVec 11} {mantissa : BitVec 52} (h : exponent = 0 → mantissa ≠ 0) (sign sign' : Sign) :
    UnpackedFloat.unpack Format.binary64 (packComponents Format.binary64 sign exponent mantissa) ≠ .zero sign' :=
  unpack_ne_zero (by rwa [unpackExponent_packComponents, unpackMantissa_packComponents]) sign'

theorem nonzero_pack {f : UnpackedFloat} (h : Regular f) : Nonzero (.ofModel (.pack f)) := by
  have hbias : (Format.binary64.exponentBias : Int) = 1023 := by decide
  intro sign
  show UnpackedFloat.unpack Format.binary64 (UnpackedFloat.pack Format.binary64 f) ≠ .zero sign
  cases f with
  | zero => exact h.elim
  | notANumber => exact unpack_packComponents_ne_zero (by decide) .positive sign
  | infinity sign' => exact unpack_packComponents_ne_zero (by decide) sign' sign
  | finite sign' m e hm =>
    obtain ⟨hlt, he⟩ := h
    rw [UnpackedFloat.pack]
    simp only [hbias]
    split_ifs with hbig hnormal
    · exact unpack_packComponents_ne_zero (by decide) sign' sign
    · refine unpack_packComponents_ne_zero (fun hexponent => ?_) sign' sign
      have hfield := congrArg BitVec.toNat hexponent
      rw [BitVec.toNat_ofNat, Nat.mod_eq_of_lt (by omega)] at hfield
      change _ = 0 at hfield
      omega
    · refine unpack_packComponents_ne_zero (fun _ hmantissa => ?_) sign' sign
      have hbits : Format.binary64.mantissaBits = 53 := by decide
      have hlog := (Nat.log2_lt hm.ne').2 hlt
      have hlow := (Nat.log2_lt hm.ne').1 (show m.log2 < 52 by omega)
      have hfield := congrArg BitVec.toNat hmantissa
      rw [BitVec.toNat_ofNat, Nat.mod_eq_of_lt hlow] at hfield
      change _ = 0 at hfield
      omega

/-- The opposite of what is not zero is not zero. -/
theorem Nonzero.neg {x : Float} (h : Nonzero x) : Nonzero (-x) := by
  have hneg : -x = .ofModel (.pack x.toModel.unpack.neg) := rfl
  have hregular : Regular x.toModel.unpack := by
    cases hx : x.isNaN with
    | true =>
      rw [Float.isNaN, Float.Model.isNaN] at hx
      generalize x.toModel.unpack = number at hx
      cases number with
      | notANumber => trivial
      | zero => cases hx
      | finite => cases hx
      | infinity => trivial
    | false =>
      have hencodes := encodes_unpack hx
      rw [Nonzero] at h
      generalize x.toModel.unpack = number at h hencodes
      cases number with
      | notANumber => trivial
      | zero sign => exact absurd rfl (h sign)
      | finite sign m e hm => exact ⟨hencodes.2.1, hencodes.2.2.1⟩
      | infinity => trivial
  rw [hneg]
  apply nonzero_pack
  generalize x.toModel.unpack = number at hregular
  cases number <;> exact hregular

/-! ## Products and quotients -/

/-- How often half of the smallest double goes into one. -/
@[irreducible] def fineness : Nat := 2 ^ 1075

theorem fineness_eq {n : Nat} (h : n = 1075) : fineness = 2 ^ n := by
  rw [h]
  unfold fineness
  rfl

theorem two_mul_pow_le {k : Nat} (h : k ≤ 1074) : 2 * 2 ^ k ≤ fineness := by
  have hscaled : ∀ n, k + 1 ≤ n → 2 * 2 ^ k ≤ 2 ^ n := fun n hn => by
    rw [← Nat.pow_succ']
    exact Nat.pow_le_pow_right Nat.two_pos hn
  unfold fineness
  exact hscaled 1075 (Nat.succ_le_succ h)

theorem mul_fineness_le {m k : Nat} (h : m.log2 + 1 + 1075 ≤ k) : m * fineness ≤ 10 ^ k := by
  have hscaled : ∀ n, m * 2 ^ n ≤ 2 ^ (m.log2 + 1 + n) := fun n => by
    rw [Nat.pow_add]
    exact Nat.mul_le_mul_right _ Nat.lt_log2_self.le
  unfold fineness
  exact (hscaled 1075).trans ((Nat.pow_le_pow_right Nat.two_pos h).trans (Nat.pow_le_pow_left (by decide) k))

theorem four_mul_le_quarters (m : Nat) (accuracy : Accuracy) :
    4 * m ≤ quarters (ExtendedMantissa.ofMantissaAndAccuracy m accuracy) := by
  rw [quarters, halves, mantissa_ofMantissaAndAccuracy]
  omega

theorem regular_mul {sign₁ sign₂ : Sign} {m₁ m₂ : Nat} {e₁ e₂ : Int} (h₁ : 0 < m₁) (h₂ : 0 < m₂) (he : -1074 ≤ e₁ + e₂) :
    Regular (mul Format.binary64 (.finite sign₁ m₁ e₁ h₁) (.finite sign₂ m₂ e₂ h₂)) := by
  refine regular_roundWithAccuracy ?_
  have hle := four_mul_le_quarters (m₁ * m₂) .exact
  have hpos := Nat.mul_pos h₁ h₂
  rw [show (-1074 - (e₁ + e₂)).toNat = 0 by omega]
  omega

/-- A quotient above one half is above half a unit. -/
theorem lt_quarters_quotient {n d : Nat} (hd : 0 < d) (h : d < 2 * n) :
    2 < quarters (ExtendedMantissa.ofMantissaAndAccuracy (n / d) (accuracyOfFraction (n % d) d)) := by
  by_cases hlt : n < d
  · have hrest : accuracyOfFraction n d = .inexact .gt := by
      rw [accuracyOfFraction, if_neg (by omega), Nat.compare_eq_gt.2 h]
    rw [Nat.div_eq_of_lt hlt, Nat.mod_eq_of_lt hlt, hrest]
    decide
  · have hpos := Nat.div_pos (Nat.not_lt.1 hlt) hd
    have hle := four_mul_le_quarters (n / d) (accuracyOfFraction (n % d) d)
    omega

/-- A quotient above half of the smallest double is not rounded to zero. -/
theorem regular_div {sign₁ sign₂ : Sign} {m₁ m₂ : Nat} {e₁ e₂ : Int} (h₁ : 0 < m₁) (h₂ : 0 < m₂) (he : -1074 ≤ e₁ - e₂)
    (h : m₂ < m₁ * 2 ^ (1075 + (e₁ - e₂)).toNat) :
    Regular (div Format.binary64 (.finite sign₁ m₁ e₁ h₁) (.finite sign₂ m₂ e₂ h₂)) := by
  have hle₁ := Nat.log2_self_le h₁.ne'
  have hlt₂ := Nat.lt_log2_self (n := m₂)
  rw [UnpackedFloat.div]
  simp only [divCore, targetExponent_eq, totalExponent]
  refine regular_roundWithAccuracy ?_
  generalize htop : min (e₁ - e₂) (max ((m₁.log2 + 1 + e₁ : Int) - (m₂.log2 + 1 + e₂) - 53) (-1074)) = target
  rw [show (-1074 - target).toNat = 0 by omega, Nat.shiftLeft_eq]
  refine lt_quarters_quotient h₂ ?_
  -- either there is room for all bits of the quotient, or the exponent is the smallest one
  by_cases hwide : m₂.log2 + 53 ≤ m₁.log2 + (e₁ - e₂ - target).toNat
  · calc m₂ < 2 ^ (m₂.log2 + 1) := hlt₂
      _ ≤ 2 ^ (m₁.log2 + (e₁ - e₂ - target).toNat) := Nat.pow_le_pow_right Nat.two_pos (by omega)
      _ ≤ m₁ * 2 ^ (e₁ - e₂ - target).toNat := by
        rw [Nat.pow_add]
        exact Nat.mul_le_mul_right _ hle₁
      _ ≤ 2 * (m₁ * 2 ^ (e₁ - e₂ - target).toNat) := Nat.le_mul_of_pos_left _ Nat.two_pos
  · rw [show (1075 + (e₁ - e₂)).toNat = (e₁ - e₂ - target).toNat + 1 by omega, Nat.pow_succ] at h
    calc m₂ < m₁ * (2 ^ (e₁ - e₂ - target).toNat * 2) := h
      _ = 2 * (m₁ * 2 ^ (e₁ - e₂ - target).toNat) := by ring

/-- What is read from a decimal above half of the smallest double is not zero. -/
theorem regular_ofScientific {m : Nat} {e : Int} (hm : m ≠ 0) (h : 10 ^ (-e).toNat < m * 10 ^ e.toNat * fineness) :
    Regular (UnpackedFloat.ofScientific Format.binary64 m e) := by
  have hwidth : (2 : Int) ^ Format.binary64.exponentBits = 2048 := by decide
  have hbits : (Format.binary64.mantissaBits : Int) = 53 := by decide
  rw [UnpackedFloat.ofScientific, dif_neg hm]
  split_ifs with hbig hsmall hsign
  · trivial
  · rw [show e.toNat = 0 by omega, Nat.pow_zero, Nat.mul_one] at h
    exact absurd h (Nat.not_lt.2 (mul_fineness_le (by omega)))
  · exact regular_mul _ _ (by omega)
  · refine regular_div _ _ (by decide) ?_
    rw [show e.toNat = 0 by omega, Nat.pow_zero, Nat.mul_one] at h
    rwa [fineness_eq (n := (1075 + ((0 : Int) - 0)).toNat) rfl] at h

/-! ## Natural numbers -/

/-- A natural number fills the mantissa when it is shifted for that. -/
theorem shifted_bounds {n : Nat} (hn : n ≠ 0) (h : n < 2 ^ 53) : 2 ^ 52 ≤ n * 2 ^ (52 - n.log2) ∧ n * 2 ^ (52 - n.log2) < 2 ^ 53 := by
  have hlog := (Nat.log2_lt hn).2 h
  have hscale : 2 ^ n.log2 * 2 ^ (52 - n.log2) = 2 ^ 52 := by
    rw [← Nat.pow_add]
    congr 1
    omega
  constructor
  · exact hscale ▸ Nat.mul_le_mul_right _ (Nat.log2_self_le hn)
  · calc n * 2 ^ (52 - n.log2) < 2 ^ (n.log2 + 1) * 2 ^ (52 - n.log2) :=
          Nat.mul_lt_mul_of_pos_right Nat.lt_log2_self (Nat.two_pow_pos _)
      _ = 2 * (2 ^ n.log2 * 2 ^ (52 - n.log2)) := by ring
      _ = 2 ^ 53 := by rw [hscale]; rfl

/-- A natural number of at most 53 bits is a double as it is, and not a small one. -/
theorem unpack_toFloat {n : UInt64} (hn : n.toNat ≠ 0) (h : n.toNat < 2 ^ 53) :
    ∃ hm, n.toFloat.toModel.unpack = .finite .positive (n.toNat * 2 ^ (52 - n.toNat.log2)) (-(52 - n.toNat.log2 : Nat)) hm := by
  have hunpack : n.toFloat.toModel.unpack =
      UnpackedFloat.unpack Format.binary64 (UnpackedFloat.pack Format.binary64 (UnpackedFloat.ofUInt64 Format.binary64 n)) := rfl
  have hlog := (Nat.log2_lt hn).2 h
  obtain ⟨hlow, hhigh⟩ := shifted_bounds hn h
  have hround : UnpackedFloat.ofUInt64 Format.binary64 n =
      .finite .positive (n.toNat * 2 ^ (52 - n.toNat.log2)) (-(52 - n.toNat.log2 : Nat)) (by omega) := by
    rw [UnpackedFloat.ofUInt64, UnpackedFloat.ofNat, UnpackedFloat.ofInt, UnpackedFloat.normalize, Int.compare_eq_gt.2 (by omega)]
    simp only [UnpackedFloat.round, decreaseExponent, Int.toNat_natCast, targetExponent_eq, totalExponent, Nat.shiftLeft_eq]
    rw [show (0 - max ((n.toNat.log2 : Int) + 1 + 0 - 53) (-1074)).toNat = 52 - n.toNat.log2 by omega]
    rw [roundWithAccuracy_exact (by omega) hlow hhigh (by omega)]
    exact finite_congr rfl (by omega)
  refine ⟨by omega, ?_⟩
  rw [hunpack, hround]
  exact unpack_pack_finite .positive ⟨by omega, hhigh, by omega, by omega, .inr hlow⟩

/-- Such a number times or divided by a power of ten is not zero. -/
theorem nonzero_mul_div {x y : Float} {sign : Sign} {m : Nat} {e : Int} {hm : 0 < m} (hx : x.toModel.unpack = .finite sign m e hm)
    (he : -52 ≤ e) (hy : Modest y.toModel.unpack = true) : Nonzero (x * y) ∧ Nonzero (x / y) := by
  have hmul : x * y = .ofModel (.pack (UnpackedFloat.mul Format.binary64 x.toModel.unpack y.toModel.unpack)) := rfl
  have hdiv : x / y = .ofModel (.pack (UnpackedFloat.div Format.binary64 x.toModel.unpack y.toModel.unpack)) := rfl
  rw [hmul, hdiv, hx]
  generalize y.toModel.unpack = q at hy
  cases q with
  | finite sign₂ m₂ e₂ h₂ =>
    simp only [Modest, Bool.and_eq_true, decide_eq_true_eq] at hy
    obtain ⟨⟨hm₂, hlow⟩, hhigh⟩ := hy
    refine ⟨nonzero_pack (regular_mul hm h₂ (by omega)), nonzero_pack (regular_div hm h₂ (by omega) ?_)⟩
    calc m₂ < 2 ^ 53 := hm₂
      _ ≤ 2 ^ (1075 + (e - e₂)).toNat := Nat.pow_le_pow_right Nat.two_pos (by omega)
      _ ≤ m * 2 ^ (1075 + (e - e₂)).toNat := Nat.le_mul_of_pos_left _ hm
  | zero => cases hy
  | infinity => cases hy
  | notANumber => cases hy

/-- The double nearest to a decimal above half of the smallest double is not zero. -/
theorem nonzero_ofScientific {m : Nat} {e : Int} (hm : m ≠ 0) (h : 10 ^ (-e).toNat < m * 10 ^ e.toNat * fineness) :
    Nonzero (Float.ofScientific m (decide (e < 0)) e.natAbs) := by
  rw [Float.ofScientific]
  split
  · rename_i hsmall
    obtain ⟨hlt, he⟩ := hsmall
    have htoNat : m.toUInt64.toNat = m := by
      rw [Nat.toUInt64_eq, UInt64.toNat_ofNat', Nat.mod_eq_of_lt (by omega)]
    obtain ⟨_, hx⟩ := unpack_toFloat (n := m.toUInt64) (by rwa [htoNat]) (by rwa [htoNat])
    have hnonzero := nonzero_mul_div hx (by omega) (modest_powerOfTen ⟨e.natAbs, by omega⟩)
    split
    · exact hnonzero.2
    · exact hnonzero.1
  · have hread := nonzero_pack (regular_ofScientific hm h)
    rw [← Decimal.exponent_eq e] at hread
    exact hread

end Doubles

open Doubles

/-! ## Decimals -/

theorem lt_pow_digitCount (n : Nat) : n < 10 ^ digitCount n := by
  induction n using Nat.strongRecOn with
  | ind n ih =>
    rw [digitCount]
    split_ifs with hzero
    · omega
    · have := ih (n / 10) (by omega)
      rw [Nat.pow_succ]
      omega

theorem fineness_le {n : Nat} (h : 324 ≤ n) : fineness ≤ 10 ^ n := by
  have hlt : fineness < 10 ^ 324 := by decide +kernel
  exact (Nat.lt_of_lt_of_le hlt (pow_le_pow_right₀ (by decide) h)).le

namespace Decimal

/-- A decimal above half of the smallest double. -/
def Perceptible (d : Decimal) : Prop := 10 ^ (-d.exponent).toNat < d.coefficient * 10 ^ d.exponent.toNat * fineness

/-- Such a decimal has its first digit in the range of doubles. -/
theorem Perceptible.le_top {d : Decimal} (h : d.Perceptible) : -324 ≤ (digitCount d.coefficient : Int) + d.exponent := by
  by_contra hlow
  have hroom : 324 ≤ (-d.exponent).toNat - digitCount d.coefficient := by omega
  rw [Perceptible, show d.exponent.toNat = 0 by omega, Nat.pow_zero, Nat.mul_one] at h
  refine absurd h (Nat.not_lt.2 ?_)
  calc d.coefficient * fineness
      ≤ 10 ^ digitCount d.coefficient * 10 ^ ((-d.exponent).toNat - digitCount d.coefficient) :=
        Nat.mul_le_mul (lt_pow_digitCount _).le (fineness_le hroom)
    _ = 10 ^ (-d.exponent).toNat := by
        rw [← Nat.pow_add]
        congr 1
        omega

/-- A decimal above half of the smallest double is not read as zero. -/
theorem Perceptible.nonzero_toFloat {d : Decimal} (h : d.Perceptible) : Nonzero d.toFloat := by
  have hcoefficient : d.coefficient ≠ 0 := by
    intro hzero
    rw [Perceptible, hzero, Nat.zero_mul, Nat.zero_mul] at h
    exact Nat.not_lt_zero _ h
  have htop := h.le_top
  have hinfinity : Nonzero (1.0 / 0.0) := fun _ => Float.Model.UnpackedFloat.noConfusion
  have hsign : ∀ x : Float, Nonzero x → Nonzero (if d.negative then -x else x) := by
    intro x hx
    split
    · exact hx.neg
    · exact hx
  apply hsign
  split_ifs with hzero hbig
  · exact absurd hzero (by omega)
  · exact hinfinity
  · exact nonzero_ofScientific hcoefficient h

end Decimal

/-- Rounding to the nearest integer keeps more than half of what is one or more. -/
theorem lt_two_mul_roundHalfEven {n d : Nat} (hd : 0 < d) (h : d ≤ n) : n < 2 * roundHalfEven n d * d := by
  have hle : n / d ≤ roundHalfEven n d := by
    rw [roundHalfEven]
    split_ifs <;> omega
  have hone : 1 ≤ n / d := Nat.div_pos h hd
  calc n < (n / d + 1) * d := Nat.lt_mul_of_div_lt (Nat.lt_succ_self _) hd
    _ ≤ 2 * roundHalfEven n d * d := Nat.mul_le_mul_right d (by omega)

/-- A fraction is no less than its leading power of ten. -/
theorem pow_leadingExponent_le {n d : Nat} (hn : 0 < n) {e : Int} (he : e ≤ leadingExponent n d) :
    d * 10 ^ e.toNat ≤ n * 10 ^ (-e).toNat := by
  rw [leadingExponent] at he
  split at he
  · rename_i hle
    rcases Nat.eq_zero_or_pos d with rfl | hd
    · rw [Nat.zero_mul]
      exact Nat.zero_le _
    · have hquotient := Nat.div_pos hle hd
      have hpow : 10 ^ e.toNat ≤ n / d := by
        have hdigits := pow_digitCount_le hquotient.ne'
        have hcount : e.toNat + 1 ≤ digitCount (n / d) ∨ e.toNat = 0 := by omega
        rcases hcount with hcount | hzero
        · have := (Nat.pow_le_pow_right (n := 10) (by decide) hcount).trans hdigits
          rw [Nat.pow_succ] at this
          omega
        · rwa [hzero]
      calc d * 10 ^ e.toNat ≤ d * (n / d) := Nat.mul_le_mul_left d hpow
        _ ≤ n := Nat.mul_div_le n d
        _ ≤ n * 10 ^ (-e).toNat := Nat.le_mul_of_pos_right n (Nat.pow_pos (by decide))
  · rename_i hlt
    rw [show e.toNat = 0 by omega, Nat.pow_zero, Nat.mul_one]
    have hquotient : (d - 1) / n < 10 ^ (-e).toNat :=
      (lt_pow_digitCount _).trans_le (Nat.pow_le_pow_right (by decide) (by omega))
    have := (Nat.div_lt_iff_lt_mul hn).1 hquotient
    rw [Nat.mul_comm]
    omega

namespace Binary

/-- The magnitude of a finite double that is not zero is no less than the smallest one. -/
theorem magnitude_ge {x : Float} (hx : x.isFinite = true) (hzero : (x == 0.0) = false) :
    0 < (ofFloat x).numerator ∧ 2 * (ofFloat x).denominator ≤ fineness := by
  have hsigned : signedBits x ≠ 0 := by
    intro h
    have heq : (x == 0.0) = true := (beq_iff (not_isNaN_of_isFinite hx) rfl).2 (h.trans (by decide))
    rw [hzero] at heq
    exact Bool.false_ne_true heq
  have hlt : x.toBits.toNat < 2 ^ 64 := x.toBits.toNat_lt
  have hbits : x.toBits.toNat % 2 ^ 63 ≠ 0 := by
    rw [signedBits] at hsigned
    split_ifs at hsigned <;> omega
  rw [numerator, denominator, ofFloat]
  split_ifs with hfield
  · exact ⟨Nat.mul_pos (by simp only; omega) (Nat.pow_pos Nat.two_pos), two_mul_pow_le (by simp only; omega)⟩
  · exact ⟨Nat.mul_pos (by simp only; omega) (Nat.pow_pos Nat.two_pos),
      two_mul_pow_le (by simp only [Int.ofNat_eq_natCast]; omega)⟩

/-- Rounding a finite double that is not zero to significant digits keeps more than half of it. -/
theorem perceptible_toSignificant {x : Float} (hx : x.isFinite = true) (hzero : (x == 0.0) = false) (digits : Nat) :
    ((ofFloat x).toSignificant digits).Perceptible := by
  obtain ⟨hnumerator, hdenominator⟩ := magnitude_ge hx hzero
  have hpositive := (ofFloat x).denominator_pos
  generalize ofFloat x = b at hnumerator hdenominator hpositive
  rw [toSignificant]
  have hdigits : 1 ≤ max 1 (min digits 800) := Nat.le_max_left _ _
  generalize max 1 (min digits 800) = count at hdigits
  have he : b.lastExponent count ≤ leadingExponent b.numerator b.denominator := by
    rw [lastExponent]
    omega
  generalize b.lastExponent count = e at he
  simp only [Decimal.Perceptible, scaled, Nat.pow_eq]
  have hscaled := pow_leadingExponent_le hnumerator he
  have hrounded := lt_two_mul_roundHalfEven (Nat.mul_pos hpositive (Nat.pow_pos (n := e.toNat) (Nat.succ_pos 9))) hscaled
  calc 10 ^ (-e).toNat ≤ b.numerator * 10 ^ (-e).toNat := Nat.le_mul_of_pos_left _ hnumerator
    _ < 2 * roundHalfEven (b.numerator * 10 ^ (-e).toNat) (b.denominator * 10 ^ e.toNat) * (b.denominator * 10 ^ e.toNat) := hrounded
    _ = roundHalfEven (b.numerator * 10 ^ (-e).toNat) (b.denominator * 10 ^ e.toNat) * 10 ^ e.toNat * (2 * b.denominator) := by ring
    _ ≤ roundHalfEven (b.numerator * 10 ^ (-e).toNat) (b.denominator * 10 ^ e.toNat) * 10 ^ e.toNat * fineness :=
      Nat.mul_le_mul_left _ hdenominator

end Binary

end FormulaDag
