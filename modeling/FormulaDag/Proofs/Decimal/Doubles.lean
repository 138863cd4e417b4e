import Mathlib
import FormulaDag.Decimal.Binary

/-!
# Doubles within their range

A rounded number is a finite double as long as the exponent that it is rounded to fits the format, and this exponent is small when the
number is: below half a unit above the greatest double nothing is rounded to infinity. The bounds are about the logical model of doubles,
in which every operation unpacks its operands, rounds the exact result and packs it.
-/

namespace FormulaDag.Doubles

open Float.Model Float.Model.UnpackedFloat

/-- A number with an exponent of at most `top`. -/
def Fits (top : Int) : UnpackedFloat → Prop
  | .zero _ => True
  | .finite _ _ e _ => e ≤ top
  | _ => False

/-- Twice an extended mantissa, rounded down: the mantissa with the bit behind it. -/
def halves (em : ExtendedMantissa) : Nat := 2 * em.mantissa + em.roundBit.toNat

theorem halves_div_two (em : ExtendedMantissa) : halves em / 2 = em.mantissa := by
  have hbit : em.roundBit.toNat ≤ 1 := Bool.toNat_le em.roundBit
  rw [halves]
  omega

/-- A shift by one bit makes the last bit of the mantissa the bit behind it. -/
theorem halves_shiftRightOne (em : ExtendedMantissa) : halves em.shiftRightOne = em.mantissa := by
  have hlast : (em.mantissa % 2 != 0).toNat = em.mantissa % 2 := by
    rcases Nat.mod_two_eq_zero_or_one em.mantissa with h | h <;> simp [h]
  simp only [halves, ExtendedMantissa.shiftRightOne, hlast]
  omega

theorem halves_shiftRight (em : ExtendedMantissa) (n : Nat) : halves (em >>> n) = halves em / 2 ^ n := by
  induction n with
  | zero => simp [HShiftRight.hShiftRight, Nat.repeat]
  | succ n ih =>
    calc halves (em >>> (n + 1)) = halves (em >>> n) / 2 := (halves_shiftRightOne _).trans (halves_div_two _).symm
      _ = halves em / 2 ^ (n + 1) := by rw [ih, Nat.div_div_eq_div_mul, Nat.pow_succ]

/-- Rounding to the nearest goes up by no more than what a half behind the mantissa allows. -/
theorem roundedMantissa_le (em : ExtendedMantissa) : em.roundedMantissa ≤ (halves em + 1) / 2 := by
  obtain ⟨m, round, sticky⟩ := em
  cases round <;> cases sticky <;>
    simp only [ExtendedMantissa.roundedMantissa, ExtendedMantissa.accuracy, Accuracy.roundToNearestEven, halves, Bool.toNat_true,
      Bool.toNat_false] <;> omega

theorem mantissa_ofMantissaAndAccuracy (m : Nat) (accuracy : Accuracy) : (ExtendedMantissa.ofMantissaAndAccuracy m accuracy).mantissa = m := by
  cases accuracy with
  | exact => rfl
  | inexact o => cases o <;> rfl

theorem targetExponent_eq (total : Int) : Format.binary64.targetExponent total = max (total - 53) (-1074) := by
  have hmin : Format.binary64.minExponent = -1074 := by decide
  have hbits : (Format.binary64.mantissaBits : Int) = 53 := by decide
  rw [Format.targetExponent, hmin, hbits]

/-- The exponent that a number below a power of two is rounded to. -/
theorem targetExponent_le {m : Nat} {e top : Int} (htop : -1074 ≤ top) (h : (m.log2 : Int) + 1 + e ≤ top + 53) :
    Format.binary64.targetExponent (totalExponent m e) ≤ top := by
  rw [targetExponent_eq, totalExponent]
  omega

theorem log2_add_le {m : Nat} {e top : Int} (he : e ≤ top) (h : m < 2 ^ (53 + (top - e).toNat)) : (m.log2 : Int) + 1 + e ≤ top + 53 := by
  have hlog : m.log2 < 53 + (top - e).toNat := by
    by_cases hm : m = 0
    · rw [hm]
      exact Nat.lt_of_lt_of_le (by decide) (Nat.le_add_right 53 _)
    · exact (Nat.log2_lt hm).2 h
  omega

theorem shiftToTargetExponent_eq {m : Nat} {e top : Int} (accuracy : Accuracy) (htop : -1074 ≤ top) (he : e ≤ top)
    (h : m < 2 ^ (53 + (top - e).toNat)) :
    ∃ n : Nat, e + n ≤ top ∧ shiftToTargetExponent Format.binary64 m e accuracy =
      (ExtendedMantissa.ofMantissaAndAccuracy m accuracy >>> n, e + n) := by
  have htarget := targetExponent_le htop (log2_add_le he h)
  exact ⟨_, by omega, rfl⟩

/-- A number is rounded to an exponent that fits when it is less than half a unit above the greatest number that fits. -/
theorem fits_roundWithAccuracy {sign : Sign} {m : Nat} {e top : Int} {accuracy : Accuracy} (htop : -1074 ≤ top) (he : e ≤ top)
    (h : halves (ExtendedMantissa.ofMantissaAndAccuracy m accuracy) < (2 ^ 54 - 1) * 2 ^ (top - e).toNat) :
    Fits top (roundWithAccuracy Format.binary64 sign m e accuracy) := by
  have hm : m < 2 ^ (53 + (top - e).toNat) := by
    rw [halves, mantissa_ofMantissaAndAccuracy] at h
    rw [Nat.pow_add]
    omega
  obtain ⟨n, hn, hshift⟩ := shiftToTargetExponent_eq accuracy htop he hm
  have hrounded : (ExtendedMantissa.ofMantissaAndAccuracy m accuracy >>> n).roundedMantissa < 2 ^ (53 + (top - (e + n)).toNat) := by
    have hle := roundedMantissa_le (ExtendedMantissa.ofMantissaAndAccuracy m accuracy >>> n)
    have hsplit : (top - e).toNat = (top - (e + n)).toNat + n := by omega
    rw [halves_shiftRight] at hle
    have hpos := Nat.two_pow_pos (top - (e + n)).toNat
    rw [hsplit, Nat.pow_add, ← Nat.mul_assoc, ← Nat.div_lt_iff_lt_mul (Nat.two_pow_pos n)] at h
    rw [Nat.pow_add]
    omega
  obtain ⟨n', hn', hshift'⟩ := shiftToTargetExponent_eq .exact htop hn hrounded
  rw [roundWithAccuracy, hshift]
  simp only [hshift']
  split
  · trivial
  · exact hn'

/-- Rounding gives a number. -/
theorem roundWithAccuracy_ne_notANumber (spec : Format) (sign : Sign) (m : Nat) (e : Int) (accuracy : Accuracy) :
    roundWithAccuracy spec sign m e accuracy ≠ .notANumber := by
  rw [roundWithAccuracy]
  split
  simp only
  split <;> simp

/-- A number as it is unpacked: its mantissa has 53 bits, and its exponent is at most `top`. -/
def Unpacked (top : Int) : UnpackedFloat → Prop
  | .zero _ => True
  | .finite _ m e _ => m < 2 ^ 53 ∧ e ≤ top
  | _ => False

/-- Bits with the greatest exponent are those of an infinity or of no number. -/
theorem unpack_of_greatest {bits : BitVec 64} (h : @unpackExponent .binary64 bits = -1) :
    UnpackedFloat.unpack Format.binary64 bits =
      if @unpackMantissa .binary64 bits = 0 then .infinity (.ofBitVec (@unpackSign .binary64 bits))
      else .notANumber := by
  rw [UnpackedFloat.unpack]
  exact if_pos h

/-- Bits without the greatest exponent are those of a number. -/
theorem unpacked_unpack (bits : BitVec 64) {top : Int} (htop : -1074 ≤ top)
    (hfinite : @unpackExponent .binary64 bits ≠ -1)
    (h : ((@unpackExponent .binary64 bits).toNat : Int) - 1075 ≤ top) :
    Unpacked top (UnpackedFloat.unpack Format.binary64 bits) := by
  have hbias : (Format.binary64.exponentBias : Int) = 1023 := by decide
  have hmantissa : (@unpackMantissa .binary64 bits).toNat < 2 ^ 52 := BitVec.isLt _
  rw [UnpackedFloat.unpack]
  simp only [hbias]
  split_ifs with hinf _ hzero
  · exact absurd hinf hfinite
  · exact absurd hinf hfinite
  · trivial
  · have hexponent : (@unpackExponent .binary64 bits).toNat = 0 := by rw [hzero]; rfl
    exact ⟨by omega, by omega⟩
  · exact ⟨(1#1 ++ @unpackMantissa .binary64 bits).isLt, by omega⟩

theorem unpack_packComponents (sign : Sign) (exponent : BitVec 11) (mantissa : BitVec 52) {top : Int} (htop : -1074 ≤ top)
    (hfinite : exponent ≠ -1) (h : (exponent.toNat : Int) - 1075 ≤ top) :
    Unpacked top (UnpackedFloat.unpack Format.binary64 (packComponents Format.binary64 sign exponent mantissa)) :=
  unpacked_unpack _ htop (by rwa [unpackExponent_packComponents]) (by rwa [unpackExponent_packComponents])

/-- A number whose exponent fits the format is packed as it is, up to the bits of its mantissa. -/
theorem unpack_pack {f : UnpackedFloat} {top : Int} (hlow : -1074 ≤ top) (htop : top ≤ 971) (h : Fits top f) :
    Unpacked top (UnpackedFloat.unpack Format.binary64 (UnpackedFloat.pack Format.binary64 f)) := by
  have hbias : (Format.binary64.exponentBias : Int) = 1023 := by decide
  cases f with
  | zero sign =>
    exact unpack_packComponents sign 0 0 hlow (by decide) (by simpa using by omega)
  | finite sign m e hm =>
    have he : e ≤ top := h
    rw [UnpackedFloat.pack]
    simp only [hbias]
    split_ifs with hbig hnormal
    · omega
    · have hlt : (e + 1023 + (52 : Nat)).toNat < 2 ^ 11 := by omega
      refine unpack_packComponents sign _ _ hlow (fun heq => ?_) ?_
      · have hall := congrArg BitVec.toNat heq
        rw [BitVec.toNat_ofNat, Nat.mod_eq_of_lt hlt] at hall
        have : (-1 : BitVec 11).toNat = 2047 := by decide
        omega
      · rw [BitVec.toNat_ofNat, Nat.mod_eq_of_lt hlt]
        omega
    · exact unpack_packComponents sign _ _ hlow (by decide) (by simpa using by omega)
  | infinity => exact h.elim
  | notANumber => exact h.elim

/-- A number is packed as a number or an infinity. -/
theorem unpack_pack_ne_notANumber {f : UnpackedFloat} (h : f ≠ .notANumber) :
    UnpackedFloat.unpack Format.binary64 (UnpackedFloat.pack Format.binary64 f) ≠ .notANumber := by
  have hinfinity : ∀ sign, UnpackedFloat.unpack Format.binary64 (packedInfinity Format.binary64 sign) ≠ .notANumber := by
    intro sign
    have hexponent : unpackExponent (packedInfinity Format.binary64 sign) = -1 := unpackExponent_packComponents
    have hmantissa : unpackMantissa (packedInfinity Format.binary64 sign) = 0 := unpackMantissa_packComponents
    rw [unpack_of_greatest hexponent, if_pos hmantissa]
    exact UnpackedFloat.noConfusion
  have hfits : ∀ {f : UnpackedFloat}, Fits 971 f →
      UnpackedFloat.unpack Format.binary64 (UnpackedFloat.pack Format.binary64 f) ≠ .notANumber := by
    intro f hf heq
    have := unpack_pack (by decide) (by decide) hf
    rw [heq] at this
    exact this
  cases f with
  | notANumber => exact absurd rfl h
  | infinity sign => exact hinfinity sign
  | zero sign => exact hfits trivial
  | finite sign m e hm =>
    by_cases he : e ≤ 971
    · exact hfits he
    · have hbias : (Format.binary64.exponentBias : Int) = 1023 := by decide
      rw [UnpackedFloat.pack]
      simp only [hbias]
      rw [if_pos (by omega)]
      exact hinfinity sign

/-- A rounded number whose exponent fits the format is a finite double. -/
theorem isFinite_pack {f : UnpackedFloat} (h : Fits 971 f) : (Float.ofModel (Float.Model.pack f)).isFinite = true := by
  have hnumber := unpack_pack (by decide) (by decide) h
  have hunpack : (Float.Model.pack f).unpack = UnpackedFloat.unpack Format.binary64 (UnpackedFloat.pack Format.binary64 f) := rfl
  rw [Float.isFinite, Float.Model.isFinite, hunpack]
  generalize UnpackedFloat.unpack Format.binary64 (UnpackedFloat.pack Format.binary64 f) = number at hnumber
  cases number <;> first | rfl | exact hnumber.elim

theorem isNaN_pack {f : UnpackedFloat} (h : f ≠ .notANumber) : (Float.ofModel (Float.Model.pack f)).isNaN = false := by
  have hnumber := unpack_pack_ne_notANumber h
  have hunpack : (Float.Model.pack f).unpack = UnpackedFloat.unpack Format.binary64 (UnpackedFloat.pack Format.binary64 f) := rfl
  rw [Float.isNaN, Float.Model.isNaN, hunpack]
  generalize UnpackedFloat.unpack Format.binary64 (UnpackedFloat.pack Format.binary64 f) = number at hnumber
  cases number <;> first | rfl | exact absurd rfl hnumber

/-- The exponent field of a double. -/
theorem toNat_unpackExponent (bits : BitVec 64) :
    (@unpackExponent .binary64 bits).toNat = bits.toNat / 0x10000000000000 % 2048 := by
  simp [unpackExponent, BitVec.extractLsb, BitVec.extractLsb', Nat.shiftRight_eq_div_pow]

/-- A double is finite unless its exponent field is the greatest one. -/
theorem field_of_isFinite {x : Float} (h : x.isFinite = true) : x.toBits.toNat / 0x10000000000000 % 2048 ≠ 2047 := by
  intro hfield
  have hexponent : @unpackExponent .binary64 x.toModel.toBits.toBitVec = -1 := by
    apply BitVec.eq_of_toNat_eq
    rw [toNat_unpackExponent]
    exact hfield
  rw [Float.isFinite, Float.Model.isFinite, Float.Model.unpack, unpack_of_greatest hexponent] at h
  split_ifs at h
  · exact Bool.false_ne_true h
  · exact Bool.false_ne_true h

theorem unpacked_of_isFinite {x : Float} (h : x.isFinite = true) : Unpacked 971 x.toModel.unpack := by
  have hfield := field_of_isFinite h
  have hlt : x.toBits.toNat / 0x10000000000000 % 2048 < 2048 := Nat.mod_lt _ (by decide)
  have hexponent : (@unpackExponent .binary64 x.toModel.toBits.toBitVec).toNat =
      x.toBits.toNat / 0x10000000000000 % 2048 := toNat_unpackExponent _
  refine unpacked_unpack _ (by decide) (fun heq => ?_) (by omega)
  rw [heq] at hexponent
  exact hfield hexponent.symm

/-- The opposite of a finite double is finite. -/
theorem isFinite_neg {x : Float} (h : x.isFinite = true) : (-x).isFinite = true := by
  have hnumber := unpacked_of_isFinite h
  have hneg : -x = .ofModel (.pack x.toModel.unpack.neg) := rfl
  rw [hneg]
  apply isFinite_pack
  generalize x.toModel.unpack = number at hnumber
  cases number with
  | zero => trivial
  | finite => exact hnumber.2
  | infinity => exact hnumber.elim
  | notANumber => exact hnumber.elim

/-- The opposite of a number or an infinity is one. -/
theorem isNaN_neg {x : Float} (h : x.isNaN = false) : (-x).isNaN = false := by
  have hneg : -x = .ofModel (.pack x.toModel.unpack.neg) := rfl
  rw [hneg]
  apply isNaN_pack
  rw [Float.isNaN, Float.Model.isNaN] at h
  generalize x.toModel.unpack = number at h
  cases number with
  | notANumber => exact (Bool.false_ne_true h.symm).elim
  | infinity => exact UnpackedFloat.noConfusion
  | zero => exact UnpackedFloat.noConfusion
  | finite => exact UnpackedFloat.noConfusion

theorem not_isNaN_of_isFinite {x : Float} (h : x.isFinite = true) : x.isNaN = false := by
  have hnumber := unpacked_of_isFinite h
  rw [Float.isNaN, Float.Model.isNaN]
  generalize x.toModel.unpack = number at hnumber
  cases number <;> first | rfl | exact hnumber.elim

/-- What is not finite is not zero. -/
theorem beq_zero_of_not_finite {x : Float} (h : x.isFinite = false) : (x == 0.0) = false := by
  have hzero : (0.0 : Float).toModel.unpack = .zero .positive := rfl
  have hbeq : (x == 0.0) = x.toModel.unpack.beq (0.0 : Float).toModel.unpack := rfl
  rw [Float.isFinite, Float.Model.isFinite] at h
  rw [hbeq, hzero]
  generalize x.toModel.unpack = number at h
  cases number with
  | notANumber => rfl
  | infinity sign => cases sign <;> rfl
  | zero => exact (Bool.false_ne_true h.symm).elim
  | finite => exact (Bool.false_ne_true h.symm).elim

end FormulaDag.Doubles
