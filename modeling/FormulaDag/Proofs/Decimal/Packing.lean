import FormulaDag.Decimal.Binary
import FormulaDag.Proofs.Decimal.Order

/-!
# Finite doubles and their parts

A finite double other than zero is its sign, its mantissa and its exponent. Packing these gives a double that is unpacked to them again,
and the exact value that is read off the bits of the double has them too.
-/

namespace FormulaDag

namespace Doubles

open Float.Model Float.Model.UnpackedFloat

/-- A mantissa and an exponent as a finite double has them: all 53 bits are in use, unless the exponent is the smallest one. -/
structure Canonical (m : Nat) (e : Int) : Prop where
  pos : 0 < m
  lt_width : m < 2 ^ 53
  exponent_ge : -1074 ≤ e
  exponent_le : e ≤ 971
  full : e = -1074 ∨ 2 ^ 52 ≤ m

theorem finite_congr {sign : Sign} {m m' : Nat} {e e' : Int} {hm : 0 < m} {hm' : 0 < m'} (h : m = m') (he : e = e') :
    UnpackedFloat.finite sign m e hm = .finite sign m' e' hm' := by
  subst h he
  rfl

theorem log2_eq_of_width {m : Nat} (hlow : 2 ^ 52 ≤ m) (hhigh : m < 2 ^ 53) : m.log2 = 52 := by
  have hm : m ≠ 0 := by omega
  have hle := (Nat.le_log2 hm).2 hlow
  have hlt := (Nat.log2_lt hm).2 hhigh
  omega

/-- The parts of a finite double are packed as they are. -/
theorem unpack_pack_finite (sign : Sign) {m : Nat} {e : Int} (h : Canonical m e) :
    UnpackedFloat.unpack Format.binary64 (UnpackedFloat.pack Format.binary64 (.finite sign m e h.pos)) = .finite sign m e h.pos := by
  obtain ⟨hm, hwidth, hlow, hhigh, hfull⟩ := h
  have hbias : (Format.binary64.exponentBias : Int) = 1023 := by decide
  have hbits : Format.binary64.mantissaBits = 53 := by decide
  rw [UnpackedFloat.pack]
  simp only [hbias, hbits]
  rw [if_neg (by omega), UnpackedFloat.unpack]
  by_cases hnormal : 2 ^ 52 ≤ m
  · have hfield : (BitVec.ofNat 11 (e + 1023 + (52 : Nat)).toNat).toNat = (e + 1075).toNat := by
      rw [BitVec.toNat_ofNat, Nat.mod_eq_of_lt (by omega)]
      omega
    have hmantissa : (1#1 ++ BitVec.ofNat 52 m).toNat = m := by
      rw [toNat_one_append, BitVec.toNat_ofNat]
      omega
    simp only [log2_eq_of_width hnormal hwidth, if_true, unpackExponent_packComponents, unpackMantissa_packComponents,
      unpackSign_packComponents, Sign.ofBitVec_toBitVec, hbias]
    refine (if_neg fun heq => ?_).trans ((if_neg fun heq => ?_).trans (finite_congr hmantissa ?_))
    · rw [heq] at hfield
      change 2047 = _ at hfield
      omega
    · rw [heq] at hfield
      change 0 = _ at hfield
      omega
    · rw [hfield]
      omega
  · have hlog : m.log2 + 1 ≠ 53 := by
      have hshort := (Nat.log2_lt hm.ne').2 (Nat.not_le.1 hnormal)
      omega
    have hmantissa : (BitVec.ofNat 52 m).toNat = m := by rw [BitVec.toNat_ofNat, Nat.mod_eq_of_lt (Nat.not_le.1 hnormal)]
    simp only [hlog, if_false, unpackExponent_packComponents, unpackMantissa_packComponents, unpackSign_packComponents,
      Sign.ofBitVec_toBitVec, hbias]
    refine (if_neg (by decide)).trans ((if_pos trivial).trans ((dif_neg fun heq => ?_).trans (finite_congr hmantissa ?_)))
    · rw [heq] at hmantissa
      change 0 = m at hmantissa
      omega
    · change ((0 : Nat) : Int) - (1023 + (52 : Nat)) + 1 = e
      omega

/-- A double is what it is unpacked to. -/
theorem eq_pack_unpack (x : Float) : x = .ofModel (.pack x.toModel.unpack) := by
  apply eq_of_toNat_toBits
  have hbits := pack_unpack_of_valid x.toModel.valid
  exact congrArg BitVec.toNat hbits.symm

/-- The opposite of a packed number has the other sign. -/
theorem neg_pack_finite (sign : Sign) {m : Nat} {e : Int} (h : Canonical m e) :
    -Float.ofModel (.pack (.finite sign m e h.pos)) = .ofModel (.pack (.finite (-sign) m e h.pos)) := by
  have hunpack : (Float.ofModel (.pack (.finite sign m e h.pos))).toModel.unpack = .finite sign m e h.pos := unpack_pack_finite sign h
  have hneg : -Float.ofModel (.pack (.finite sign m e h.pos)) =
      .ofModel (.pack (Float.ofModel (.pack (.finite sign m e h.pos))).toModel.unpack.neg) := rfl
  rw [hneg, hunpack]
  rfl

/-- The exact value of a finite double that is not zero has its parts. -/
theorem exists_canonical {x : Float} (hx : x.isFinite = true) (hzero : (x == 0.0) = false) :
    ∃ sign m e, ∃ h : Canonical m e, x = .ofModel (.pack (.finite sign m e h.pos)) ∧
      Binary.ofFloat x = ⟨sign == .negative, m, e⟩ := by
  have hencodes := encodes_unpack (not_isNaN_of_isFinite hx)
  have hpack := eq_pack_unpack x
  have hlt : x.toBits.toNat < 2 ^ 64 := x.toBits.toNat_lt
  have hbeq : (x == 0.0) = x.toModel.unpack.beq (.zero .positive) := rfl
  rw [Float.isFinite, Float.Model.isFinite] at hx
  rw [hbeq] at hzero
  generalize x.toModel.unpack = number at hx hzero hencodes hpack
  cases number with
  | notANumber => exact hencodes.elim
  | infinity => exact (Bool.false_ne_true hx).elim
  | zero => exact (Bool.false_ne_true hzero.symm).elim
  | finite sign m e hm =>
    obtain ⟨hbits, hwidth, hlow, hhigh, hfull⟩ := hencodes
    refine ⟨sign, m, e, ⟨hm, hwidth, hlow, hhigh, hfull⟩, hpack, ?_⟩
    rw [signedBits] at hbits
    have hsign : (sign == .negative) = decide (0x8000000000000000 ≤ x.toBits.toNat) := by
      rw [Bool.eq_iff_iff, decide_eq_true_iff]
      cases sign <;> simp only [Sign.apply] at hbits <;> split_ifs at hbits <;> simp <;> omega
    have hmagnitude : ((x.toBits.toNat % 2 ^ 63 : Nat) : Int) = m + (e + 1074) * 2 ^ 52 := by
      cases sign <;> simp only [Sign.apply] at hbits <;> split_ifs at hbits <;> omega
    rw [Binary.ofFloat, hsign]
    by_cases hfield : x.toBits.toNat / 0x10000000000000 % 2048 = 0
    · simp only [hfield, if_true, Binary.mk.injEq, true_and]
      omega
    · simp only [hfield, if_false, Binary.mk.injEq, true_and, Int.ofNat_eq_natCast]
      omega

/-- The exact value of a double that is packed from its parts. -/
theorem ofFloat_pack_finite (sign : Sign) {m : Nat} {e : Int} (h : Canonical m e) :
    Binary.ofFloat (.ofModel (.pack (.finite sign m e h.pos))) = ⟨sign == .negative, m, e⟩ := by
  generalize hx : Float.ofModel (.pack (.finite sign m e h.pos)) = x
  have hunpack : x.toModel.unpack = .finite sign m e h.pos := hx ▸ unpack_pack_finite sign h
  have hfinite : x.isFinite = true := by
    rw [Float.isFinite, Float.Model.isFinite, hunpack]
    rfl
  have hzero : (x == 0.0) = false := by
    change x.toModel.unpack.beq (.zero .positive) = false
    rw [hunpack]
    cases sign <;> rfl
  obtain ⟨sign', m', e', h', hpack, hexact⟩ := exists_canonical hfinite hzero
  have hsame : UnpackedFloat.finite sign m e h.pos = .finite sign' m' e' h'.pos :=
    hunpack.symm.trans ((congrArg (fun x => x.toModel.unpack) hpack).trans (unpack_pack_finite sign' h'))
  cases hsame
  exact hexact

/-- A number beyond the greatest exponent is packed as an infinity. -/
theorem pack_of_exponent_gt (sign : Sign) {m : Nat} {e : Int} (hm : 0 < m) (he : 971 < e) :
    Float.Model.pack (.finite sign m e hm) = Float.Model.pack (.infinity sign) := by
  have hbias : (Format.binary64.exponentBias : Int) = 1023 := by decide
  have hbits : UnpackedFloat.pack Format.binary64 (.finite sign m e hm) = UnpackedFloat.pack Format.binary64 (.infinity sign) := by
    rw [UnpackedFloat.pack, UnpackedFloat.pack]
    simp only [hbias]
    exact if_pos (by omega)
  simp only [Float.Model.pack, hbits]

end Doubles

/-- A double has no more than 53 bits, and none behind the 1074th place. -/
theorem Binary.ofFloat_bounds (x : Float) : (ofFloat x).significand < 2 ^ 53 ∧ -1074 ≤ (ofFloat x).exponent := by
  rw [ofFloat]
  split_ifs with hfield
  · exact ⟨by simp only; omega, le_rfl⟩
  · exact ⟨by simp only; omega, by simp only [Int.ofNat_eq_natCast]; omega⟩

end FormulaDag
