import FormulaDag.Decimal.Notation
import FormulaDag.Decimal.Reading
import FormulaDag.Proofs.Decimal.Reading
import FormulaDag.Proofs.Pieces

/-!
# Finite doubles are read back from what is written

Seventeen significant digits tell a double from all others, so the search for the shortest decimal that reads back always finds one, and
rounding to so many digits changes nothing. What is written in the plain form is read back as the double, so it determines the double.
-/

namespace FormulaDag

theorem Text.toLower_of_isDigit {c : Char} (hc : c.isDigit = true) : c.toLower = c := by
  rw [Char.toLower, dif_neg]
  rintro ⟨h, -⟩
  simp only [Char.isDigit, Bool.and_eq_true, decide_eq_true_eq, ge_iff_le, UInt32.le_iff_toNat_le] at hc h
  have hnine : '9'.val.toNat = 57 := rfl
  have hfirst : 'A'.val.toNat = 65 := rfl
  omega

namespace Binary

/-- A positive magnitude reaches its leading power of ten. -/
theorem zpow_leadingExponent_le {b : Binary} (hb : 0 < b.numerator) :
    (10 : ℚ) ^ leadingExponent b.numerator b.denominator ≤ b.magnitude := by
  generalize he : leadingExponent b.numerator b.denominator = e
  have hle : (b.scaled e).2 ≤ (b.scaled e).1 := pow_leadingExponent_le hb he.ge
  have hpos : (0 : ℚ) < (b.scaled e).2 := by exact_mod_cast b.scaled_snd_pos e
  have hone : 1 ≤ b.magnitude / 10 ^ e := by
    rw [← b.div_scaled, one_le_div hpos]
    exact_mod_cast hle
  rwa [one_le_div (zpow_pos (by norm_num) e)] at hone

/-- The nearest decimal with seventeen digits is closer to a number than the number shifted by 54 bits. -/
theorem near_of_nearestEven {b : Binary} (hb : 0 < b.numerator) {digits k : Nat} (hdigits : 17 ≤ digits)
    (hk : NearestEven k (b.magnitude / 10 ^ b.lastExponent digits)) :
    |k * 10 ^ b.lastExponent digits - b.magnitude| * 2 ^ 54 < b.magnitude := by
  have hleading := zpow_leadingExponent_le hb
  have hle : b.lastExponent digits + (16 : Nat) ≤ leadingExponent b.numerator b.denominator := by
    rw [lastExponent]
    omega
  generalize b.lastExponent digits = e at hk hle
  have hten : (0 : ℚ) < 10 ^ e := zpow_pos (by norm_num) e
  have hunits : (10 : ℚ) ^ e * 10 ^ 16 ≤ b.magnitude := by
    calc (10 : ℚ) ^ e * 10 ^ 16 = 10 ^ (e + (16 : Nat)) := by rw [zpow_add₀ (by norm_num), zpow_natCast]
      _ ≤ 10 ^ leadingExponent b.numerator b.denominator := zpow_le_zpow_right₀ (by norm_num) hle
      _ ≤ b.magnitude := hleading
  have hdistance : |k * 10 ^ e - b.magnitude| = |b.magnitude / 10 ^ e - k| * 10 ^ e := by
    rw [abs_sub_comm, ← abs_of_pos hten, ← abs_mul, abs_of_pos hten, sub_mul, div_mul_cancel₀ _ hten.ne']
  calc |k * 10 ^ e - b.magnitude| * 2 ^ 54 = |b.magnitude / 10 ^ e - k| * 10 ^ e * 2 ^ 54 := by rw [hdistance]
    _ ≤ 1 / 2 * 10 ^ e * 2 ^ 54 := by
      gcongr
      exact hk.abs_le_half
    _ < 10 ^ e * 10 ^ 16 := by linarith
    _ ≤ b.magnitude := hunits

/-- Rounding a double to seventeen or more significant digits leads back to it. -/
theorem toFloat_toSignificant {x : Float} (hx : x.isFinite = true) (hzero : (x == 0.0) = false) {digits : Nat} (hdigits : 17 ≤ digits) :
    ((ofFloat x).toSignificant digits).toFloat = x := by
  apply Decimal.toFloat_of_near hx hzero rfl
  exact near_of_nearestEven (magnitude_ge hx hzero).1 (by omega) (nearestEven_scaled _ _)

end Binary

namespace Decimal

/-! ## The shortest decimal -/

theorem toFloat_of_readsBackAs {x : Float} (hzero : (x == 0.0) = false) {d : Decimal} (h : d.readsBackAs x = true) : d.toFloat = x := by
  rw [readsBackAs, Float.beq_iff_ne_nan_and_eq] at h
  obtain ⟨-, -, heq | ⟨-, rfl⟩ | ⟨-, rfl⟩⟩ := h
  · exact heq
  · exact absurd hzero (by decide)
  · exact absurd hzero (by decide)

theorem readsBackAs_of_toFloat {x : Float} (hx : x.isFinite = true) {d : Decimal} (h : d.toFloat = x) : d.readsBackAs x = true := by
  rw [readsBackAs, h]
  exact (Doubles.beq_iff (Doubles.not_isNaN_of_isFinite hx) (Doubles.not_isNaN_of_isFinite hx)).2 rfl

/-- A neighbour that is chosen reads back. -/
theorem readsBackAs_of_neighbour? {x : Float} {digits : Nat} {d : Decimal} (h : neighbour? x digits = some d) : d.readsBackAs x = true := by
  unfold neighbour? at h
  simp only at h
  split at h
  · rename_i hbelow habove
    rw [Option.some.injEq] at h
    subst h
    split
    · exact hbelow
    · exact habove
  · rename_i hbelow _
    exact Option.some.inj h ▸ hbelow
  · rename_i _ habove
    exact Option.some.inj h ▸ habove
  · cases h

/-- With seventeen digits one of the neighbours reads back. -/
theorem exists_neighbour? {x : Float} (hx : x.isFinite = true) (hzero : (x == 0.0) = false) : ∃ d, neighbour? x 17 = some d := by
  have hexact : ((Binary.ofFloat x).toSignificant 17).toFloat = x :=
    Binary.toFloat_toSignificant hx hzero (by decide)
  have hread := readsBackAs_of_toFloat hx hexact
  rw [Binary.toSignificant, show max 1 (min 17 800) = 17 by decide] at hread
  unfold neighbour?
  simp only
  have hround : ∀ n d : Nat, roundHalfEven n d = n / d ∨ roundHalfEven n d = n / d + 1 := by
    intro n d
    rw [roundHalfEven]
    split_ifs <;> simp
  split
  · exact ⟨_, rfl⟩
  · exact ⟨_, rfl⟩
  · exact ⟨_, rfl⟩
  · rename_i hbelow habove
    rcases hround ((Binary.ofFloat x).scaled ((Binary.ofFloat x).lastExponent 17)).1
      ((Binary.ofFloat x).scaled ((Binary.ofFloat x).lastExponent 17)).2 with h | h
    · rw [h, hbelow] at hread
      exact (Bool.false_ne_true hread).elim
    · rw [h, habove] at hread
      exact (Bool.false_ne_true hread).elim

/-- Zeros at the end of the coefficient do not change the value. -/
theorem trimmed_spec (d : Decimal) : d.trimmed.negative = d.negative ∧ d.trimmed.magnitude = d.magnitude := by
  induction d using trimmed.induct with
  | case1 d h ih =>
    rw [trimmed, if_pos h]
    refine ⟨ih.1, ih.2.trans ?_⟩
    have hcoefficient : (d.coefficient : ℚ) = (d.coefficient / 10 : Nat) * 10 := by
      exact_mod_cast (Nat.div_mul_cancel (Nat.dvd_of_mod_eq_zero h.2)).symm
    rw [magnitude, magnitude, hcoefficient, zpow_add_one₀ (by norm_num)]
    ring
  | case2 d h => rw [trimmed, if_neg h]; exact ⟨rfl, rfl⟩

/-- The shortest decimal of a double reads back. -/
theorem toFloat_shortest {x : Float} (hx : x.isFinite = true) : (shortest x).toFloat = x := by
  rw [shortest]
  cases hzero : x == 0.0 with
  | true =>
    rw [if_pos rfl]
    have hbeq := hzero
    rw [Float.beq_iff_ne_nan_and_eq] at hbeq
    obtain ⟨-, -, rfl | ⟨rfl, -⟩ | ⟨rfl, -⟩⟩ := hbeq <;> decide
  | false =>
    rw [if_neg Bool.false_ne_true]
    obtain ⟨d, hd⟩ : ∃ d, (List.range 17).findSome? (fun k => neighbour? x (k + 1)) = some d := by
      rw [← Option.isSome_iff_exists, List.findSome?_isSome_iff]
      obtain ⟨d, hd⟩ := exists_neighbour? hx hzero
      exact ⟨16, by simp, by rw [hd]; rfl⟩
    obtain ⟨k, -, hk⟩ := List.exists_of_findSome?_eq_some hd
    obtain ⟨hnegative, hmagnitude⟩ := trimmed_spec d
    rw [hd]
    exact (toFloat_congr hnegative hmagnitude).trans (toFloat_of_readsBackAs hzero (readsBackAs_of_neighbour? hk))

/-! ## Reading the plain form -/

/-- A run of digits is read as an integer. -/
theorem magnitude?_of_digits {whole : Text} (hwhole : ∀ c ∈ whole, c.isDigit = true) (hne : whole ≠ []) (negative : Bool) :
    magnitude? negative whole = some ⟨negative, Text.digitsValue whole, 0⟩ := by
  simp [magnitude?, List.takeWhile_eq_self_iff.2 hwhole, List.dropWhile_eq_nil_iff.2 hwhole, hne, exponent?]

/-- Runs of digits around a point are read with the places behind it. -/
theorem magnitude?_of_point {whole fraction : Text} (hwhole : ∀ c ∈ whole, c.isDigit = true)
    (hfraction : ∀ c ∈ fraction, c.isDigit = true) (hne : whole ≠ []) (negative : Bool) :
    magnitude? negative (whole ++ '.' :: fraction) = some ⟨negative, Text.digitsValue (whole ++ fraction), -fraction.length⟩ := by
  simp [magnitude?, List.takeWhile_append_of_pos hwhole, List.dropWhile_append_of_pos hwhole, List.takeWhile_eq_self_iff.2 hfraction,
    List.dropWhile_eq_nil_iff.2 hfraction, hne, exponent?]

theorem isDigit_of_mem_zeros {n : Nat} {c : Char} (h : c ∈ List.replicate n '0') : c.isDigit = true := by
  rw [List.eq_of_mem_replicate h]
  rfl

theorem digitsValue_append_zeros (t : Text) (n : Nat) : Text.digitsValue (t ++ List.replicate n '0') = 10 ^ n * Text.digitsValue t :=
  (Nat.ofDigitChars_append 0).trans Nat.ofDigitChars_replicate_zero

theorem digitsValue_zeros_append (n : Nat) (t : Text) : Text.digitsValue (List.replicate n '0' ++ t) = Text.digitsValue t := by
  refine (Nat.ofDigitChars_append 0).trans ?_
  rw [Nat.ofDigitChars_replicate_zero, Nat.mul_zero]
  rfl

/-- Digits in positional notation are read as a decimal with the same magnitude. -/
theorem magnitude?_positional (negative : Bool) (d : Decimal) :
    ∃ d', magnitude? negative d.positional = some d' ∧ d'.negative = negative ∧ d'.magnitude = d.magnitude := by
  have hdigits : ∀ c ∈ Text.ofNat d.coefficient, c.isDigit = true := fun c => Index.isDigit_of_mem_ofNat
  have hne := Index.ofNat_ne_nil d.coefficient
  have hvalue := Index.digitsValue_ofNat d.coefficient
  have hlength := List.length_pos_of_ne_nil hne
  rw [positional]
  generalize Text.ofNat d.coefficient = digits at hdigits hne hvalue hlength
  split_ifs with hinteger hpoint
  · have hall : ∀ c ∈ digits ++ List.replicate d.exponent.toNat '0', c.isDigit = true :=
      List.forall_mem_append.2 ⟨hdigits, fun c => isDigit_of_mem_zeros⟩
    refine ⟨_, magnitude?_of_digits hall (by simp [hne]) negative, rfl, ?_⟩
    rw [magnitude, magnitude, digitsValue_append_zeros, hvalue, zpow_zero, mul_one, mul_comm, Nat.cast_mul, Nat.cast_pow, Nat.cast_ofNat,
      ← zpow_natCast, Int.toNat_of_nonneg hinteger]
  · have hwhole : ∀ c ∈ digits.take (digits.length + d.exponent).toNat, c.isDigit = true := fun c hc => hdigits c (List.mem_of_mem_take hc)
    have hfraction : ∀ c ∈ digits.drop (digits.length + d.exponent).toNat, c.isDigit = true :=
      fun c hc => hdigits c (List.mem_of_mem_drop hc)
    have hexponent : -((digits.drop (digits.length + d.exponent).toNat).length : Int) = d.exponent := by
      rw [List.length_drop]
      omega
    refine ⟨_, magnitude?_of_point hwhole hfraction ?_ negative, rfl, ?_⟩
    · rw [ne_eq, List.take_eq_nil_iff]
      exact fun h => h.elim (by omega) hne
    · rw [List.take_append_drop, hvalue, hexponent]
      rfl
  · have hzero : ∀ c ∈ (['0'] : Text), c.isDigit = true := by simp
    have hfraction : ∀ c ∈ List.replicate (-(digits.length + d.exponent)).toNat '0' ++ digits, c.isDigit = true :=
      List.forall_mem_append.2 ⟨fun c => isDigit_of_mem_zeros, hdigits⟩
    have hexponent : -((List.replicate (-(digits.length + d.exponent)).toNat '0' ++ digits).length : Int) = d.exponent := by
      rw [List.length_append, List.length_replicate]
      omega
    refine ⟨_, magnitude?_of_point hzero hfraction (List.cons_ne_nil _ _) negative, rfl, ?_⟩
    rw [hexponent, ← List.append_assoc, show ['0'] = List.replicate 1 '0' from rfl, List.replicate_append_replicate,
      digitsValue_zeros_append, hvalue]
    rfl

/-- Positional notation begins with a digit. -/
theorem isDigit_of_head?_positional (d : Decimal) : ∀ c ∈ d.positional.head?, c.isDigit = true := by
  have hdigits : ∀ c ∈ Text.ofNat d.coefficient, c.isDigit = true := fun c => Index.isDigit_of_mem_ofNat
  obtain ⟨first, rest, heq⟩ := List.exists_cons_of_ne_nil (Index.ofNat_ne_nil d.coefficient)
  rw [heq] at hdigits
  have hfirst := hdigits first List.mem_cons_self
  rw [positional, heq]
  split_ifs with hinteger hpoint
  · simpa using hfirst
  · obtain ⟨n, hn⟩ : ∃ n, (((first :: rest).length : Int) + d.exponent).toNat = n + 1 := ⟨_, (Nat.succ_pred_eq_of_pos (by omega)).symm⟩
    rw [hn]
    simpa using hfirst
  · simp

/-- A text that begins with a digit or a point, up to its sign, is no word. -/
theorem read?_of_splitSign {t rest : Text} {negative : Bool} (hsign : splitSign t = (negative, rest))
    (hhead : ∀ c ∈ rest.head?, c.isDigit = true ∨ c = '.') : read? t = (magnitude? negative rest).map toFloat := by
  have hwords : ∀ w ∈ ["inf".toList, "infinity".toList, "nan".toList], w.head? = some 'i' ∨ w.head? = some 'n' := by decide
  have hword : ∀ w ∈ ["inf".toList, "infinity".toList, "nan".toList], rest.map Char.toLower ≠ w := by
    intro w hw heq
    have hletter := hwords w hw
    rw [← heq, List.head?_map] at hletter
    cases hc : rest.head? with
    | none => simp [hc] at hletter
    | some c =>
      rw [hc, Option.map_some] at hletter
      rcases hhead c hc with hdigit | rfl
      · rw [Text.toLower_of_isDigit hdigit] at hletter
        rcases hletter with h | h <;> cases h <;> exact absurd hdigit (by decide)
      · exact absurd hletter (by decide)
  rw [read?, hsign]
  simp only [hword "inf".toList (by simp), hword "infinity".toList (by simp), hword "nan".toList (by simp), or_self, if_false]

/-- A finite double is read back from its plain form. -/
theorem read?_plain {x : Float} (hx : x.isFinite = true) : read? (plain x) = some x := by
  obtain ⟨d', hread, hnegative, hmagnitude⟩ := magnitude?_positional (shortest x).negative (shortest x)
  have hhead := isDigit_of_head?_positional (shortest x)
  have hsign : splitSign (plain x) = ((shortest x).negative, (shortest x).positional) := by
    have hplain : plain x = (shortest x).signed (shortest x).positional := if_pos hx
    rw [hplain, signed]
    generalize (shortest x).positional = t at hhead
    cases (shortest x).negative with
    | true => rfl
    | false =>
      rw [if_neg Bool.false_ne_true, splitSign]
      · rintro rest rfl
        exact absurd (hhead '-' rfl) (by decide)
      · rintro rest rfl
        exact absurd (hhead '+' rfl) (by decide)
  rw [read?_of_splitSign hsign fun c hc => .inl (hhead c hc), hread, Option.map_some, toFloat_congr hnegative hmagnitude, toFloat_shortest hx]

/-- The plain form determines a finite double. -/
theorem eq_of_plain {x y : Float} (hx : x.isFinite = true) (hy : y.isFinite = true) (h : plain x = plain y) : x = y := by
  have hread := read?_plain hx
  rw [h, read?_plain hy] at hread
  exact (Option.some.inj hread).symm

end Decimal

end FormulaDag
