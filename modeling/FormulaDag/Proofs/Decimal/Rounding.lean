import FormulaDag.Proofs.Decimal.Nearest
import FormulaDag.Proofs.Decimal.Nonzero

/-!
# Rounding to doubles

A product, a quotient and a decimal are rounded to the format in one step from their exact value: the mantissa is the nearest number of
units, the even one of two, and a unit is what the last of the 53 bits counts, or the smallest double. So what a decimal is read as
depends on its sign and its magnitude only, and a decimal close enough to a double is read as that double.
-/

namespace FormulaDag

namespace Doubles

open Float.Model Float.Model.UnpackedFloat

/-! ## Extended mantissas -/

/-- The numbers that an extended mantissa stands for: with a half added for the bit behind the mantissa, exactly that number or, if
anything follows, one before the next half. -/
def StandsFor (em : ExtendedMantissa) (x : ℚ) : Prop :=
  if em.stickyBit then (halves em : ℚ) < 2 * x ∧ 2 * x < halves em + 1 else 2 * x = halves em

/-- A mantissa with nothing behind it stands for itself. -/
theorem standsFor_exact (m : Nat) : StandsFor (.ofMantissaAndAccuracy m .exact) m := by
  simp [StandsFor, ExtendedMantissa.ofMantissaAndAccuracy, halves]

/-- The quotient of two numbers with its accuracy stands for their fraction. -/
theorem standsFor_quotient (n : Nat) {d : Nat} (hd : 0 < d) :
    StandsFor (.ofMantissaAndAccuracy (n / d) (accuracyOfFraction (n % d) d)) (n / d) := by
  have hpos : (0 : ℚ) < d := by exact_mod_cast hd
  have hmod : ((n % d : Nat) : ℚ) / d < 1 := (div_lt_one hpos).2 (by exact_mod_cast Nat.mod_lt n hd)
  rw [cast_div_eq_add n hd]
  generalize n / d = q at *
  generalize n % d = r at *
  rw [accuracyOfFraction]
  split_ifs with hzero
  · simp [StandsFor, ExtendedMantissa.ofMantissaAndAccuracy, halves, hzero]
  · have hrest : (0 : ℚ) < r / d := div_pos (by exact_mod_cast Nat.pos_of_ne_zero hzero) hpos
    cases hcompare : compare (2 * r) d with
    | lt =>
      have hhalf : (r : ℚ) / d < 1 / 2 := (div_lt_half hd).2 (Nat.compare_eq_lt.1 hcompare)
      simp only [StandsFor, ExtendedMantissa.ofMantissaAndAccuracy, halves, Bool.toNat_false, if_true]
      push_cast
      constructor <;> linarith
    | eq =>
      have hhalf : (r : ℚ) / d = 1 / 2 := (div_eq_half hd).2 (Nat.compare_eq_eq.1 hcompare)
      simp only [StandsFor, ExtendedMantissa.ofMantissaAndAccuracy, halves, Bool.toNat_true, Bool.false_eq_true, if_false]
      push_cast
      linarith
    | gt =>
      have hhalf : 1 / 2 < (r : ℚ) / d := (half_lt_div hd).2 (Nat.compare_eq_gt.1 hcompare)
      simp only [StandsFor, ExtendedMantissa.ofMantissaAndAccuracy, halves, Bool.toNat_true, if_true]
      push_cast
      constructor <;> linarith

namespace StandsFor

variable {em : ExtendedMantissa} {x : ℚ}

/-- The mantissa is the integral part. -/
theorem mantissa_le (h : StandsFor em x) : (em.mantissa : ℚ) ≤ x ∧ x < em.mantissa + 1 := by
  obtain ⟨m, round, sticky⟩ := em
  cases round <;> cases sticky <;>
    simp only [StandsFor, halves, Bool.toNat_true, Bool.toNat_false, if_true, Bool.false_eq_true, if_false] at h <;>
    push_cast at h <;> constructor <;> linarith

/-- Shifting by one bit halves the number. -/
theorem shiftRightOne (h : StandsFor em x) : StandsFor em.shiftRightOne (x / 2) := by
  obtain ⟨m, round, sticky⟩ := em
  rw [StandsFor, halves_shiftRightOne]
  cases round <;> cases sticky <;>
    simp only [StandsFor, halves, Bool.toNat_true, Bool.toNat_false, if_true, Bool.false_eq_true, if_false] at h <;>
    simp only [ExtendedMantissa.shiftRightOne, Bool.or_true, Bool.or_false, if_true, Bool.false_eq_true, if_false] <;>
    push_cast at h
  · linarith
  · constructor <;> linarith
  · constructor <;> linarith
  · constructor <;> linarith

/-- Shifting divides the number by a power of two. -/
theorem shiftRight (h : StandsFor em x) (n : Nat) : StandsFor (em >>> n) (x / 2 ^ n) := by
  induction n with
  | zero =>
    rw [pow_zero, div_one]
    exact h
  | succ n ih =>
    rw [pow_succ, ← div_div]
    exact ih.shiftRightOne

/-- The rounded mantissa is the nearest number. -/
theorem nearestEven (h : StandsFor em x) : NearestEven em.roundedMantissa x := by
  obtain ⟨m, round, sticky⟩ := em
  cases round <;> cases sticky <;>
    simp only [StandsFor, halves, Bool.toNat_true, Bool.toNat_false, if_true, Bool.false_eq_true, if_false] at h <;>
    simp only [ExtendedMantissa.roundedMantissa, ExtendedMantissa.accuracy, Accuracy.roundToNearestEven] <;>
    push_cast at h
  · left
    rw [abs_lt]
    constructor <;> linarith
  · left
    rw [abs_lt]
    constructor <;> linarith
  · obtain rfl : x = m + 1 / 2 := by linarith
    rcases Nat.mod_two_eq_zero_or_one m with hm | hm <;> rw [hm]
    · exact .half_of_even hm
    · exact .half_of_odd hm
  · left
    rw [abs_lt]
    push_cast
    constructor <;> linarith

end StandsFor

/-! ## The nearest number of the format -/

/-- The logarithm of a number that is scaled by a power of the base. -/
theorem log_mul_zpow {b n : Nat} (hb : 1 < b) {x : ℚ} (hlow : (b : ℚ) ^ n ≤ x) (hhigh : x < b ^ (n + 1)) (e : Int) :
    Int.log b (x * b ^ e) = n + e := by
  have hbase : (0 : ℚ) < b := by exact_mod_cast Nat.zero_lt_of_lt hb
  have hscale : (0 : ℚ) < b ^ e := zpow_pos hbase e
  have hpos : 0 < x * b ^ e := mul_pos ((pow_pos hbase n).trans_le hlow) hscale
  have hpower : ∀ k : Nat, (b : ℚ) ^ ((k : Int) + e) = b ^ k * b ^ e := fun k => by rw [zpow_add₀ hbase.ne', zpow_natCast]
  apply le_antisymm
  · rw [← Int.lt_add_one_iff, ← Int.lt_zpow_iff_log_lt hb hpos, show (n : Int) + e + 1 = (n + 1 : Nat) + e by omega, hpower]
    exact mul_lt_mul_of_pos_right hhigh hscale
  · rw [← Int.zpow_le_iff_le_log hb hpos, hpower]
    exact mul_le_mul_of_nonneg_right hlow hscale.le

/-- The exponent of the last bit that the format keeps of a positive number. -/
def unit (x : ℚ) : Int := max (Int.log 2 x - 52) (-1074)

/-- So many units as a number of the format. All 53 bits and one more carry over to the next exponent. -/
def carried (sign : Sign) (k : Nat) (e : Int) : UnpackedFloat :=
  if k = 2 ^ 53 then .finite sign (2 ^ 52) (e + 1) (Nat.two_pow_pos 52)
  else if h : k = 0 then .zero sign
  else .finite sign k e (Nat.pos_of_ne_zero h)

/-- A number of the format with the mantissa that is nearest to a positive number, counted in the units of that. -/
def Rounds (sign : Sign) (x : ℚ) (f : UnpackedFloat) : Prop := ∃ k, NearestEven k (x / 2 ^ unit x) ∧ f = carried sign k (unit x)

/-- A positive number is rounded to one number of the format. -/
theorem Rounds.unique {sign : Sign} {x : ℚ} {f g : UnpackedFloat} (hf : Rounds sign x f) (hg : Rounds sign x g) : f = g := by
  obtain ⟨k, hk, rfl⟩ := hf
  obtain ⟨l, hl, rfl⟩ := hg
  rw [hk.unique hl]

/-- The magnitude of a number of the format. -/
def size : UnpackedFloat → ℚ
  | .finite _ m e _ => m * 2 ^ e
  | _ => 0

theorem size_carried (sign : Sign) (k : Nat) (e : Int) : size (carried sign k e) = k * 2 ^ e := by
  rw [carried]
  split_ifs with hcarry hzero
  · rw [size, hcarry, zpow_add_one₀ two_ne_zero]
    push_cast
    ring
  · rw [hzero, Nat.cast_zero, zero_mul]
    rfl
  · rw [size]

/-- A number has no more units than 53 bits count. -/
theorem div_unit_lt (x : ℚ) : x / 2 ^ unit x < (2 ^ 53 : Nat) := by
  have hlt : x < 2 ^ (Int.log 2 x + 1) := by exact_mod_cast Int.lt_zpow_succ_log_self (by decide : 1 < 2) x
  have hle : Int.log 2 x + 1 ≤ 53 + unit x := by
    rw [unit]
    omega
  rw [div_lt_iff₀ (zpow_pos two_pos _), Nat.cast_pow, Nat.cast_ofNat, ← zpow_natCast (2 : ℚ) 53, ← zpow_add₀ two_ne_zero]
  exact hlt.trans_le (zpow_le_zpow_right₀ one_le_two hle)

/-- Above the smallest unit a positive number has units for all 53 bits. -/
theorem mul_unit_le {x : ℚ} (hx : 0 < x) (h : unit x ≠ -1074) : ((2 ^ 52 : Nat) : ℚ) * 2 ^ unit x ≤ x := by
  have hunit : unit x + (52 : Nat) = Int.log 2 x := by
    rw [unit] at h ⊢
    omega
  have hlog := Int.zpow_log_le_self (by decide : 1 < 2) hx
  rw [← hunit, Nat.cast_ofNat, zpow_add₀ two_ne_zero, zpow_natCast, mul_comm] at hlog
  rwa [Nat.cast_pow, Nat.cast_ofNat]

/-- What a positive number is rounded to has all 53 bits, unless its exponent is the smallest one. -/
theorem Rounds.canonical {sign : Sign} {x : ℚ} {f : UnpackedFloat} (h : Rounds sign x f) (hx : 0 < x) :
    f = .zero sign ∨ ∃ m e hm, f = .finite sign m e hm ∧ (e ≤ 971 → Canonical m e) := by
  obtain ⟨k, hk, rfl⟩ := h
  have hlow : -1074 ≤ unit x := le_max_right _ _
  have hle := hk.le_of_lt (div_unit_lt x)
  rw [carried]
  split_ifs with hcarry hzero
  · exact .inr ⟨_, _, Nat.two_pow_pos 52, rfl, fun he => ⟨Nat.two_pow_pos 52, by decide, by omega, he, .inr le_rfl⟩⟩
  · exact .inl rfl
  · refine .inr ⟨_, _, Nat.pos_of_ne_zero hzero, rfl, fun he => ⟨Nat.pos_of_ne_zero hzero, by omega, hlow, he, ?_⟩⟩
    by_cases hfloor : unit x = -1074
    · exact .inl hfloor
    · right
      have hbits := (le_div_iff₀ (zpow_pos two_pos _)).2 (mul_unit_le hx hfloor)
      have hhalf := (abs_le.1 hk.abs_le_half).2
      by_contra hshort
      have hcast : ((k + 1 : Nat) : ℚ) ≤ (2 ^ 52 : Nat) := Nat.cast_le.2 (not_le.1 hshort)
      rw [Nat.cast_add, Nat.cast_one] at hcast
      linarith [hcast.trans hbits]

/-- No number with 53 bits is nearer to a positive number than what that is rounded to. -/
theorem Rounds.abs_sub_le {sign : Sign} {x : ℚ} {f : UnpackedFloat} (h : Rounds sign x f) (hx : 0 < x) {m : Nat} {e : Int}
    (hm : m < 2 ^ 53) (he : -1074 ≤ e) : |x - size f| ≤ |x - m * 2 ^ e| := by
  obtain ⟨k, hk, rfl⟩ := h
  have hscale : (0 : ℚ) < 2 ^ unit x := zpow_pos two_pos _
  have hcount : ∀ n : ℚ, |x - n * 2 ^ unit x| = |x / 2 ^ unit x - n| * 2 ^ unit x := fun n => by
    rw [← abs_of_pos hscale, ← abs_mul, abs_of_pos hscale, sub_mul, div_mul_cancel₀ _ hscale.ne']
  have hbest : ∀ n : Nat, |x - k * 2 ^ unit x| ≤ |x - n * 2 ^ unit x| := fun n => by
    rw [hcount, hcount]
    exact mul_le_mul_of_nonneg_right (hk.le n) hscale.le
  rw [size_carried]
  rcases le_or_gt (unit x) e with hcoarse | hfine
  · have hmultiple : (m : ℚ) * 2 ^ e = (m * 2 ^ (e - unit x).toNat : Nat) * 2 ^ unit x := by
      rw [Nat.cast_mul, Nat.cast_pow, Nat.cast_ofNat, mul_assoc, ← zpow_natCast, ← zpow_add₀ two_ne_zero]
      congr 2
      omega
    rw [hmultiple]
    exact hbest _
  · -- a number with smaller units is below the power of two that the units are chosen for
    have hlow := mul_unit_le hx (by omega)
    have hbelow : (m : ℚ) * 2 ^ e ≤ (2 ^ 52 : Nat) * 2 ^ unit x := by
      calc (m : ℚ) * 2 ^ e ≤ (2 ^ 53 : Nat) * 2 ^ e := by
            gcongr
        _ = (2 ^ 52 : Nat) * 2 ^ (e + 1) := by
            rw [zpow_add_one₀ two_ne_zero]
            push_cast
            ring
        _ ≤ (2 ^ 52 : Nat) * 2 ^ unit x := by
            gcongr
            · exact one_le_two
            · omega
    calc |x - k * 2 ^ unit x| ≤ |x - (2 ^ 52 : Nat) * 2 ^ unit x| := hbest _
      _ = x - (2 ^ 52 : Nat) * 2 ^ unit x := abs_of_nonneg (sub_nonneg.2 hlow)
      _ ≤ x - m * 2 ^ e := sub_le_sub_left hbelow x
      _ ≤ |x - m * 2 ^ e| := le_abs_self _

section
variable {m : Nat} {e : Int} {accuracy : Accuracy} {x : ℚ}
  (h : StandsFor (.ofMantissaAndAccuracy m accuracy) x) (hx : 0 < x)
  (he : e ≤ Format.binary64.targetExponent (totalExponent m e))
include h hx he

/-- A mantissa with bits enough is shifted to the units of what it stands for. -/
theorem targetExponent_eq_unit : Format.binary64.targetExponent (totalExponent m e) = unit (x * 2 ^ e) := by
  obtain ⟨hle, hlt⟩ := h.mantissa_le
  rw [mantissa_ofMantissaAndAccuracy] at hle hlt
  have htwo : (0 : ℚ) < 2 ^ e := zpow_pos two_pos e
  have hpos : 0 < x * 2 ^ e := mul_pos hx htwo
  rw [targetExponent_eq, totalExponent] at he ⊢
  rw [unit]
  by_cases hm : m = 0
  · subst hm
    have hlog : Int.log 2 (x * 2 ^ e) < e := by
      rw [Nat.cast_zero, zero_add] at hlt
      rw [← Int.lt_zpow_iff_log_lt (by decide) hpos]
      exact_mod_cast mul_lt_of_lt_one_left htwo hlt
    have hzero : (Nat.log2 0 : Int) = 0 := by decide
    omega
  · have hlow : (2 : ℚ) ^ m.log2 ≤ m := by exact_mod_cast Nat.log2_self_le hm
    have hhigh : (m : ℚ) + 1 ≤ 2 ^ (m.log2 + 1) := by exact_mod_cast Nat.lt_log2_self
    have hlog := log_mul_zpow (by decide : 1 < 2) (hlow.trans hle) (hlt.trans_le hhigh) e
    rw [Nat.cast_ofNat] at hlog
    omega

/-- A mantissa with bits enough is rounded to the nearest number of the format. -/
theorem rounds_roundWithAccuracy (sign : Sign) : Rounds sign (x * 2 ^ e) (roundWithAccuracy Format.binary64 sign m e accuracy) := by
  have htarget := targetExponent_eq_unit h hx he
  have hlow : -1074 ≤ unit (x * 2 ^ e) := le_max_right _ _
  have hlt := div_unit_lt (x * 2 ^ e)
  generalize hn : (unit (x * 2 ^ e) - e).toNat = n
  have hnearest := (h.shiftRight n).nearestEven
  have hscale : x / 2 ^ n = x * 2 ^ e / 2 ^ unit (x * 2 ^ e) := by
    rw [show unit (x * 2 ^ e) = n + e by omega, zpow_add₀ two_ne_zero, zpow_natCast, mul_div_mul_right _ _ (zpow_ne_zero _ two_ne_zero)]
  rw [hscale] at hnearest
  refine ⟨_, hnearest, ?_⟩
  have hk := hnearest.le_of_lt hlt
  rw [roundWithAccuracy, shiftToTargetExponent, shiftToExponent, htarget, hn]
  simp only [shiftToTargetExponent, shiftToExponent, mantissa_shiftRight, mantissa_ofMantissaAndAccuracy]
  rw [show e + (n : Int) = unit (x * 2 ^ e) by omega]
  generalize (ExtendedMantissa.ofMantissaAndAccuracy m accuracy >>> n).roundedMantissa = k at *
  generalize unit (x * 2 ^ e) = u at *
  have hagain : (Format.binary64.targetExponent (totalExponent k u) - u).toNat = if k = 2 ^ 53 then 1 else 0 := by
    rw [targetExponent_eq, totalExponent]
    split_ifs with hcarry
    · have hlog : k.log2 = 53 := by rw [hcarry, Nat.log2_two_pow]
      omega
    · have hlog : k.log2 ≤ 52 := by
        by_cases hzero : k = 0
        · rw [hzero]
          decide
        · exact Nat.le_of_lt_succ ((Nat.log2_lt hzero).2 (by omega))
      omega
  rw [carried]
  by_cases hcarry : k = 2 ^ 53
  · rw [if_pos hcarry] at hagain ⊢
    refine (dif_neg ?_).trans (finite_congr ?_ ?_) <;> rw [hagain]
    · rw [hcarry]
      decide
    · rw [hcarry]
      rfl
    · rfl
  · rw [if_neg hcarry] at hagain ⊢
    by_cases hzero : k = 0
    · rw [dif_pos hzero]
      exact dif_pos (by rw [hzero, Nat.zero_div])
    · rw [dif_neg hzero]
      refine (dif_neg ?_).trans (finite_congr ?_ ?_) <;> rw [hagain]
      · rwa [Nat.pow_zero, Nat.div_one]
      · rw [Nat.pow_zero, Nat.div_one]
      · exact Int.add_zero u

end

/-! ## Products, quotients and decimals -/

/-- A product with bits enough is rounded once. -/
theorem rounds_mul {sign₁ sign₂ : Sign} {m₁ m₂ : Nat} {e₁ e₂ : Int} (h₁ : 0 < m₁) (h₂ : 0 < m₂) (hwide : 2 ^ 52 ≤ m₁ * m₂) :
    Rounds (sign₁ * sign₂) (m₁ * 2 ^ e₁ * (m₂ * 2 ^ e₂))
      (mul Format.binary64 (.finite sign₁ m₁ e₁ h₁) (.finite sign₂ m₂ e₂ h₂)) := by
  have hpos : 0 < m₁ * m₂ := Nat.mul_pos h₁ h₂
  have hlog := (Nat.le_log2 hpos.ne').2 hwide
  have he : e₁ + e₂ ≤ Format.binary64.targetExponent (totalExponent (m₁ * m₂) (e₁ + e₂)) := by
    rw [targetExponent_eq, totalExponent]
    omega
  have hrounds := rounds_roundWithAccuracy (standsFor_exact (m₁ * m₂)) (by exact_mod_cast hpos) he (sign₁ * sign₂)
  rwa [zpow_add₀ two_ne_zero, Nat.cast_mul, mul_mul_mul_comm] at hrounds

/-- A quotient is rounded once. -/
theorem rounds_div {sign₁ sign₂ : Sign} {m₁ m₂ : Nat} {e₁ e₂ : Int} (h₁ : 0 < m₁) (h₂ : 0 < m₂) :
    Rounds (sign₁ / sign₂) (m₁ * 2 ^ e₁ / (m₂ * 2 ^ e₂))
      (div Format.binary64 (.finite sign₁ m₁ e₁ h₁) (.finite sign₂ m₂ e₂ h₂)) := by
  rw [UnpackedFloat.div]
  simp only [divCore, Nat.shiftLeft_eq]
  generalize htarget : min (e₁ - e₂) (Format.binary64.targetExponent (totalExponent m₁ e₁ - totalExponent m₂ e₂)) = target
  rw [targetExponent_eq, totalExponent, totalExponent] at htarget
  generalize hshift : (e₁ - e₂ - target).toNat = shift
  -- above the smallest exponent the quotient has all 53 bits
  have he : target ≤ Format.binary64.targetExponent (totalExponent (m₁ * 2 ^ shift / m₂) target) := by
    rw [targetExponent_eq, totalExponent]
    by_cases hsmall : target ≤ -1074
    · omega
    · have hwide : 2 ^ 52 ≤ m₁ * 2 ^ shift / m₂ := by
        rw [Nat.le_div_iff_mul_le h₂]
        calc 2 ^ 52 * m₂ ≤ 2 ^ 52 * 2 ^ (m₂.log2 + 1) := Nat.mul_le_mul_left _ Nat.lt_log2_self.le
          _ = 2 ^ (m₂.log2 + 53) := by rw [← Nat.pow_add]; congr 1; omega
          _ ≤ 2 ^ (m₁.log2 + shift) := Nat.pow_le_pow_right Nat.two_pos (by omega)
          _ ≤ m₁ * 2 ^ shift := by
            rw [Nat.pow_add]
            exact Nat.mul_le_mul_right _ (Nat.log2_self_le h₁.ne')
      have hlog := (Nat.le_log2 (by omega)).2 hwide
      omega
  have hpos : (0 : ℚ) < (m₁ * 2 ^ shift : Nat) / m₂ := by
    have hm₁ : (0 : ℚ) < m₁ := by exact_mod_cast h₁
    have hm₂ : (0 : ℚ) < m₂ := by exact_mod_cast h₂
    push_cast
    positivity
  have hrounds := rounds_roundWithAccuracy (standsFor_quotient (m₁ * 2 ^ shift) h₂) hpos he (sign₁ / sign₂)
  have hvalue : ((m₁ * 2 ^ shift : Nat) : ℚ) / m₂ * 2 ^ target = m₁ * 2 ^ e₁ / (m₂ * 2 ^ e₂) := by
    have hsplit : (2 : ℚ) ^ shift * 2 ^ target * 2 ^ e₂ = 2 ^ e₁ := by
      rw [← zpow_natCast, ← zpow_add₀ two_ne_zero, ← zpow_add₀ two_ne_zero]
      congr 1
      omega
    have htwo : (2 : ℚ) ^ e₂ ≠ 0 := zpow_ne_zero _ two_ne_zero
    have hm₂ : (m₂ : ℚ) ≠ 0 := by exact_mod_cast h₂.ne'
    rw [← hsplit]
    push_cast
    field_simp
  rwa [hvalue] at hrounds

/-- What is read from a decimal with an exponent that is not extreme is rounded once. -/
theorem rounds_ofScientific {m : Nat} {e : Int} (hm : m ≠ 0) (hlow : -(2048 + m.log2 : Int) ≤ e) (hhigh : e ≤ 2048) :
    Rounds .positive (m * 10 ^ e) (UnpackedFloat.ofScientific Format.binary64 m e) := by
  have hwidth : (2 : Int) ^ Format.binary64.exponentBits = 2048 := by decide
  have hbits : Format.binary64.mantissaBits = 53 := by decide
  rw [UnpackedFloat.ofScientific, dif_neg hm, hwidth, if_neg (by omega), if_neg (by omega)]
  split_ifs with hsign
  · simp only [hbits, Nat.shiftLeft_eq]
    have hwide : 2 ^ 52 ≤ m * 2 ^ 53 * 10 ^ e.toNat :=
      calc 2 ^ 52 ≤ 1 * 2 ^ 53 * 1 := by decide
        _ ≤ m * 2 ^ 53 * 10 ^ e.toNat :=
          Nat.mul_le_mul (Nat.mul_le_mul_right _ (Nat.pos_of_ne_zero hm)) (Nat.pow_pos (by decide))
    have hvalue : ((m * 2 ^ 53 : Nat) : ℚ) * 2 ^ (-((53 : Nat) : Int)) * ((10 ^ e.toNat : Nat) * 2 ^ (0 : Int)) = m * 10 ^ e := by
      rw [zpow_neg, zpow_natCast, zpow_zero, mul_one, Nat.cast_mul, Nat.cast_pow, Nat.cast_pow, Nat.cast_ofNat, Nat.cast_ofNat,
        mul_assoc (m : ℚ), mul_inv_cancel₀ (pow_ne_zero _ two_ne_zero), mul_one, ← zpow_natCast, Int.toNat_of_nonneg hsign]
    rw [← hvalue]
    exact rounds_mul _ _ hwide
  · have hvalue : (m : ℚ) * 2 ^ (0 : Int) / ((10 ^ (-e).toNat : Nat) * 2 ^ (0 : Int)) = m * 10 ^ e := by
      rw [zpow_zero, mul_one, mul_one]
      push_cast
      rw [← zpow_natCast, Int.toNat_of_nonneg (by omega), zpow_neg, div_inv_eq_mul]
    rw [← hvalue]
    exact rounds_div _ _

end Doubles

end FormulaDag
