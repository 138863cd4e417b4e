import FormulaDag.Branches
import FormulaDag.Proofs.Decimal.Doubles

/-!
# The order of doubles

Doubles are compared by sign, exponent and mantissa. These are the bits of a double from the left, so the comparison of two doubles is
that of their bits read as signed magnitudes. The total order of all doubles is the same, but for the two zeros, which are equal to each
other and have different ranks.
-/

namespace FormulaDag.Doubles

open Float.Model Float.Model.UnpackedFloat

/-- The bits of a double as a signed magnitude, in which both zeros are zero. -/
def signedBits (x : Float) : Int := if x.toBits.toNat < 2 ^ 63 then x.toBits.toNat else 2 ^ 63 - (x.toBits.toNat : Int)

/-- A number or an infinity as it is unpacked, with its bits as a signed magnitude. -/
def Encodes : UnpackedFloat → Int → Prop
  | .zero _, bits => bits = 0
  | .finite sign m e _, bits =>
    bits = sign.apply (m + (e + 1074) * 2 ^ 52) ∧ m < 2 ^ 53 ∧ -1074 ≤ e ∧ e ≤ 971 ∧ (e = -1074 ∨ 2 ^ 52 ≤ m)
  | .infinity sign, bits => bits = sign.apply (2047 * 2 ^ 52)
  | .notANumber, _ => False

theorem toNat_unpackMantissa (bits : BitVec 64) : (@unpackMantissa .binary64 bits).toNat = bits.toNat % 2 ^ 52 := by
  simp [unpackMantissa, BitVec.extractLsb, BitVec.extractLsb']

theorem toNat_one_append (mantissa : BitVec 52) : (1#1 ++ mantissa).toNat = 2 ^ 52 + mantissa.toNat := by
  have hlt := mantissa.isLt
  change 2 ^ 52 ||| mantissa.toNat = _
  rw [Nat.or_comm, Nat.or_two_pow_eq_add_of_lt hlt, Nat.add_comm]

/-- The first bit is the sign, and the others are the magnitude. -/
theorem signedBits_eq (x : Float) :
    signedBits x = (Sign.ofBitVec (@unpackSign .binary64 x.toBits.toBitVec)).apply (x.toBits.toBitVec.toNat % 2 ^ 63 : Nat) := by
  have htoNat : x.toBits.toNat = x.toBits.toBitVec.toNat := rfl
  rw [signedBits, htoNat]
  generalize x.toBits.toBitVec = bits
  have hlt := bits.isLt
  have hsign : (@unpackSign .binary64 bits).toNat = bits.toNat / 2 ^ 63 % 2 := by
    simp [unpackSign, BitVec.extractLsb, BitVec.extractLsb', Nat.shiftRight_eq_div_pow]
  have hpositive : @unpackSign .binary64 bits = 0#1 ↔ bits.toNat < 2 ^ 63 := by
    rw [← BitVec.toNat_inj, hsign, BitVec.toNat_ofNat]
    omega
  rw [Sign.ofBitVec]
  split_ifs with hbits hzero
  · rw [Sign.apply, Nat.mod_eq_of_lt hbits]
  · exact absurd (hpositive.2 hbits) hzero
  · exact absurd (hpositive.1 ‹_›) hbits
  · rw [Sign.apply]
    omega

theorem apply_zero (sign : Sign) : sign.apply 0 = 0 := by cases sign <;> rfl

/-- What is no number apart, a double is unpacked to what its bits say. -/
theorem encodes_unpack {x : Float} (h : x.isNaN = false) : Encodes x.toModel.unpack (signedBits x) := by
  have hunpack : x.toModel.unpack = UnpackedFloat.unpack Format.binary64 x.toBits.toBitVec := rfl
  have hbias : (Format.binary64.exponentBias : Int) = 1023 := by decide
  rw [Float.isNaN, Float.Model.isNaN, hunpack] at h
  rw [hunpack, signedBits_eq]
  generalize x.toBits.toBitVec = bits at h ⊢
  have hexponent := toNat_unpackExponent bits
  have hmantissa := toNat_unpackMantissa bits
  by_cases hgreatest : @unpackExponent .binary64 bits = -1
  · have hfield : (@unpackExponent .binary64 bits).toNat = 2047 := by rw [hgreatest]; rfl
    rw [unpack_of_greatest hgreatest] at h ⊢
    split_ifs at h ⊢ with hzero
    · have hfraction : (@unpackMantissa .binary64 bits).toNat = 0 := by rw [hzero]; rfl
      exact congrArg _ (by omega)
    · cases h
  · have hne : (@unpackExponent .binary64 bits).toNat ≠ 2047 := fun heq => hgreatest (BitVec.eq_of_toNat_eq heq)
    rw [UnpackedFloat.unpack]
    simp only [hbias]
    split_ifs with hinf _ hzero hfraction
    · exact absurd hinf hgreatest
    · exact absurd hinf hgreatest
    · have hfield : (@unpackExponent .binary64 bits).toNat = 0 := by rw [hzero]; rfl
      have hnone : (@unpackMantissa .binary64 bits).toNat = 0 := by rw [hfraction]; rfl
      have hall : bits.toNat % 2 ^ 63 = 0 := by omega
      rw [hall]
      exact apply_zero _
    · have hfield : (@unpackExponent .binary64 bits).toNat = 0 := by rw [hzero]; rfl
      exact ⟨congrArg _ (by omega), by omega, by omega, by omega, by omega⟩
    · have hfield : (@unpackExponent .binary64 bits).toNat ≠ 0 := fun heq => hzero (BitVec.eq_of_toNat_eq heq)
      rw [Encodes, toNat_one_append]
      exact ⟨congrArg _ (by omega), by omega, by omega, by omega, by omega⟩

/-- The exponent goes before the mantissa. -/
theorem compare_fields {m₁ m₂ : Nat} {e₁ e₂ : Int} (hm₁ : m₁ < 2 ^ 53) (hm₂ : m₂ < 2 ^ 53) (h₁ : e₁ = -1074 ∨ 2 ^ 52 ≤ m₁)
    (h₂ : e₂ = -1074 ∨ 2 ^ 52 ≤ m₂) (he₁ : -1074 ≤ e₁) (he₂ : -1074 ≤ e₂) :
    (compare e₁ e₂).then (compare m₁ m₂) = compare (m₁ + (e₁ + 1074) * 2 ^ 52) (m₂ + (e₂ + 1074) * 2 ^ 52) := by
  rcases Int.lt_trichotomy e₁ e₂ with hlt | rfl | hgt
  · rw [Int.compare_eq_lt.2 hlt, Int.compare_eq_lt.2 (by omega)]
    rfl
  · rw [Int.compare_eq_eq.2 rfl, Ordering.then]
    rcases Nat.lt_trichotomy m₁ m₂ with hlt | rfl | hgt
    · rw [Nat.compare_eq_lt.2 hlt, Int.compare_eq_lt.2 (by omega)]
    · rw [Nat.compare_eq_eq.2 rfl, Int.compare_eq_eq.2 rfl]
    · rw [Nat.compare_eq_gt.2 hgt, Int.compare_eq_gt.2 (by omega)]
  · rw [Int.compare_eq_gt.2 hgt, Int.compare_eq_gt.2 (by omega)]
    rfl

theorem swap_compare (a b : Int) : (compare a b).swap = compare (-a) (-b) := by
  rcases Int.lt_trichotomy a b with hlt | rfl | hgt
  · rw [Int.compare_eq_lt.2 hlt, Int.compare_eq_gt.2 (by omega), Ordering.swap]
  · rw [Int.compare_eq_eq.2 rfl, Int.compare_eq_eq.2 rfl, Ordering.swap]
  · rw [Int.compare_eq_gt.2 hgt, Int.compare_eq_lt.2 (by omega), Ordering.swap]

/-- Numbers and infinities are compared as their bits are. -/
theorem compare_of_encodes {f g : UnpackedFloat} {a b : Int} (hf : Encodes f a) (hg : Encodes g b) :
    f.compare g = some (compare a b) := by
  have hlt : ∀ {a b : Int}, a < b → some Ordering.lt = some (compare a b) := fun h => by rw [Int.compare_eq_lt.2 h]
  have hgt : ∀ {a b : Int}, b < a → some Ordering.gt = some (compare a b) := fun h => by rw [Int.compare_eq_gt.2 h]
  have heq : ∀ {a b : Int}, a = b → some Ordering.eq = some (compare a b) := fun h => by rw [Int.compare_eq_eq.2 h]
  cases f with
  | notANumber => exact hf.elim
  | zero s =>
    cases g with
    | notANumber => exact hg.elim
    | zero t => exact heq (hf.trans hg.symm)
    | finite t m e hm =>
      obtain ⟨hb, -, he, -, -⟩ := hg
      cases t
      · exact hgt (by simp only [Encodes, Sign.apply] at hf hb; omega)
      · exact hlt (by simp only [Encodes, Sign.apply] at hf hb; omega)
    | infinity t =>
      cases t
      · exact hgt (by simp only [Encodes, Sign.apply] at hf hg; omega)
      · exact hlt (by simp only [Encodes, Sign.apply] at hf hg; omega)
  | infinity s =>
    cases g with
    | notANumber => exact hg.elim
    | zero t =>
      cases s
      · exact hlt (by simp only [Encodes, Sign.apply] at hf hg; omega)
      · exact hgt (by simp only [Encodes, Sign.apply] at hf hg; omega)
    | finite t m e hm =>
      obtain ⟨hb, hm, he, htop, -⟩ := hg
      cases s <;> cases t
      · exact hlt (by simp only [Encodes, Sign.apply] at hf hb; omega)
      · exact hlt (by simp only [Encodes, Sign.apply] at hf hb; omega)
      · exact hgt (by simp only [Encodes, Sign.apply] at hf hb; omega)
      · exact hgt (by simp only [Encodes, Sign.apply] at hf hb; omega)
    | infinity t =>
      cases s <;> cases t
      · exact heq (hf.trans hg.symm)
      · exact hlt (by simp only [Encodes, Sign.apply] at hf hg; omega)
      · exact hgt (by simp only [Encodes, Sign.apply] at hf hg; omega)
      · exact heq (hf.trans hg.symm)
  | finite s m e hm =>
    obtain ⟨ha, hm₁, he₁, htop₁, h₁⟩ := hf
    cases g with
    | notANumber => exact hg.elim
    | zero t =>
      cases s
      · exact hlt (by simp only [Encodes, Sign.apply] at ha hg; omega)
      · exact hgt (by simp only [Encodes, Sign.apply] at ha hg; omega)
    | infinity t =>
      cases t <;> cases s
      · exact hgt (by simp only [Encodes, Sign.apply] at ha hg; omega)
      · exact hgt (by simp only [Encodes, Sign.apply] at ha hg; omega)
      · exact hlt (by simp only [Encodes, Sign.apply] at ha hg; omega)
      · exact hlt (by simp only [Encodes, Sign.apply] at ha hg; omega)
    | finite t n e' hn =>
      obtain ⟨hb, hm₂, he₂, htop₂, h₂⟩ := hg
      have hfields := compare_fields hm₁ hm₂ h₁ h₂ he₁ he₂
      cases s <;> cases t
      · rw [ha, hb]
        exact congrArg some ((congrArg Ordering.swap hfields).trans (swap_compare _ _))
      · exact hlt (by simp only [Sign.apply] at ha hb; omega)
      · exact hgt (by simp only [Sign.apply] at ha hb; omega)
      · rw [ha, hb]
        exact congrArg some hfields

/-- A number or an infinity is less than another when its bits are. -/
theorem lt_iff {x y : Float} (hx : x.isNaN = false) (hy : y.isNaN = false) : x < y ↔ signedBits x < signedBits y := by
  have hlt : (x < y) ↔ (x.toModel.unpack.compare y.toModel.unpack == some .lt) = true := by
    show Float.lt x y = true ↔ _
    exact decide_eq_true_iff
  rw [hlt, compare_of_encodes (encodes_unpack hx) (encodes_unpack hy)]
  simp [Int.compare_eq_lt]

theorem beq_iff {x y : Float} (hx : x.isNaN = false) (hy : y.isNaN = false) : (x == y) = true ↔ signedBits x = signedBits y := by
  have hbeq : (x == y) = (x.toModel.unpack.compare y.toModel.unpack == some .eq) := rfl
  rw [hbeq, compare_of_encodes (encodes_unpack hx) (encodes_unpack hy)]
  simp

/-- A double is its bits. -/
theorem eq_of_toNat_toBits {x y : Float} (h : x.toBits.toNat = y.toBits.toNat) : x = y := by
  have hbits : x.toModel.toBits = y.toModel.toBits := UInt64.toNat_inj.1 h
  obtain ⟨⟨bits, _⟩⟩ := x
  obtain ⟨⟨bits', _⟩⟩ := y
  cases hbits
  rfl

theorem toNat_toBits_ne {x : Float} (h : x ≠ -0.0) : x.toBits.toNat ≠ 2 ^ 63 := by
  have hzero : (-0.0 : Float).toBits.toNat = 2 ^ 63 := by decide
  exact fun heq => h (eq_of_toNat_toBits (heq.trans hzero.symm))

/-- A number or an infinity other than the negative zero. -/
def Ordinary (x : Float) : Prop := x.isNaN = false ∧ x ≠ -0.0

section
variable {x y : Float} (hx : Ordinary x) (hy : Ordinary y)
include hx hy

/-- Equal ordinary doubles are the same. -/
theorem beq_iff_eq : (x == y) = true ↔ x = y := by
  have hxbits := toNat_toBits_ne hx.2
  have hybits := toNat_toBits_ne hy.2
  have hxlt : x.toBits.toNat < 2 ^ 64 := x.toBits.toNat_lt
  have hylt : y.toBits.toNat < 2 ^ 64 := y.toBits.toNat_lt
  rw [beq_iff hx.1 hy.1]
  refine ⟨fun h => eq_of_toNat_toBits ?_, fun h => by rw [h]⟩
  rw [signedBits, signedBits] at h
  split_ifs at h <;> omega

/-- The total order of ordinary doubles is that of their values. -/
theorem lt_iff_rank : x < y ↔ Branches.rank x < Branches.rank y := by
  have hxbits := toNat_toBits_ne hx.2
  have hybits := toNat_toBits_ne hy.2
  rw [lt_iff hx.1 hy.1, signedBits, signedBits]
  unfold Branches.rank
  simp only
  split_ifs <;> omega

end

/-- Doubles of the same rank are the same. -/
theorem eq_of_rank {x y : Float} (h : Branches.rank x = Branches.rank y) : x = y := by
  have hxlt : x.toBits.toNat < 2 ^ 64 := x.toBits.toNat_lt
  have hylt : y.toBits.toNat < 2 ^ 64 := y.toBits.toNat_lt
  unfold Branches.rank at h
  simp only at h
  apply eq_of_toNat_toBits
  split_ifs at h <;> omega

end FormulaDag.Doubles
