import Mathlib
import FormulaDag.Argument
import FormulaDag.Proofs.Results

/-!
# What arguments give to variables

A variable gets a number from the last pair of its name, and it is the same number whether it is given as such or written as a decimal,
with or without white space around it. `Gives` says so without the functions that look names up and cut texts; binding variables finds
exactly these numbers, and where there is none it reports the first variable that lacks one.
-/

namespace FormulaDag

namespace Text
variable {t before after : Text}

/-- White space around a text does not matter once it is trimmed. -/
theorem trim_append (hbefore : ∀ c ∈ before, isBlank c = true) (hafter : ∀ c ∈ after, isBlank c = true) :
    trim (before ++ t ++ after) = trim t := by
  unfold trim
  rw [List.append_assoc, List.dropWhile_append_of_pos hbefore, List.dropWhile_append]
  split
  · rename_i hblank
    rw [List.isEmpty_iff.1 hblank, List.dropWhile_eq_nil_iff.2 hafter]
  · rw [List.reverse_append, List.dropWhile_append_of_pos]
    intro c hc
    exact hafter c (List.mem_reverse.1 hc)

/-- A text without white space is left as it is. -/
theorem trim_eq_self (h : ∀ c ∈ t, isBlank c = false) : trim t = t := by
  have hkept : ∀ u : Text, (∀ c ∈ u, isBlank c = false) → u.dropWhile isBlank = u := by
    intro u hu
    cases u with
    | nil => rfl
    | cons c u => exact List.dropWhile_cons_of_neg (by simp [hu c List.mem_cons_self])
  unfold trim
  rw [hkept t h, hkept t.reverse, List.reverse_reverse]
  intro c hc
  exact h c (List.mem_reverse.1 hc)

/-- A text is its trimmed text between white space. -/
theorem exists_trim (t : Text) :
    ∃ before after, (∀ c ∈ before, isBlank c = true) ∧ (∀ c ∈ after, isBlank c = true) ∧ t = before ++ trim t ++ after := by
  refine ⟨t.takeWhile isBlank, ((t.dropWhile isBlank).reverse.takeWhile isBlank).reverse, ?_, ?_, ?_⟩
  · intro c hc
    exact List.all_eq_true.1 List.all_takeWhile c hc
  · intro c hc
    exact List.all_eq_true.1 List.all_takeWhile c (List.mem_reverse.1 hc)
  · unfold trim
    rw [List.append_assoc, ← List.reverse_append, List.takeWhile_append_dropWhile, List.reverse_reverse,
      List.takeWhile_append_dropWhile]

theorem not_isBlank_of_isDigit {c : Char} (h : c.isDigit = true) : isBlank c = false := by
  simp only [Char.isDigit, ge_iff_le, Bool.and_eq_true, decide_eq_true_eq, UInt32.le_iff_toNat_le] at h
  have hzero : '0'.val.toNat = 48 := rfl
  have hnine : '9'.val.toNat = 57 := rfl
  simp only [isBlank, Char.toNat, Bool.or_eq_false_iff, Bool.and_eq_false_iff, decide_eq_false_iff_not, beq_eq_false_iff_ne]
  omega

/-- White space has no case. -/
theorem toLower_of_isBlank {c : Char} (h : isBlank c = true) : c.toLower = c := by
  rw [Char.toLower, dif_neg]
  rintro ⟨hlow, hhigh⟩
  simp only [isBlank, Char.toNat, Bool.or_eq_true, Bool.and_eq_true, decide_eq_true_eq, beq_iff_eq] at h
  simp only [ge_iff_le, UInt32.le_iff_toNat_le] at hlow hhigh
  have hfirst : 'A'.val.toNat = 65 := rfl
  have hlast : 'Z'.val.toNat = 90 := rfl
  omega

end Text

namespace Decimal
variable {t : Text} {c : Char}

/-- A sign is no white space. -/
theorem mem_splitSign (hc : c ∈ t) (hblank : Text.isBlank c = true) : c ∈ (splitSign t).2 := by
  unfold splitSign
  split
  · rcases List.mem_cons.1 hc with rfl | hc
    · cases hblank
    · exact hc
  · rcases List.mem_cons.1 hc with rfl | hc
    · cases hblank
    · exact hc
  · exact hc

theorem not_isBlank_of_exponent? {e : Int} (h : exponent? t = some e) : ∀ c ∈ t, Text.isBlank c = false := by
  unfold exponent? at h
  split at h
  · intro c hc
    cases hc
  · rename_i mark u
    split at h
    · rename_i hmark
      intro c hc
      rcases List.mem_cons.1 hc with rfl | hc
      · rcases hmark with rfl | rfl <;> rfl
      · by_contra hblank
        rw [Bool.not_eq_false] at hblank
        have hmem := mem_splitSign hc hblank
        simp only at h
        split at h
        · cases h
        · obtain ⟨_, hvalue, -⟩ := Option.map_eq_some_iff.1 h
          obtain ⟨n, hn, -⟩ := Option.bind_eq_some_iff.1 hvalue
          unfold digits? at hn
          split at hn
          · rename_i hall
            rw [Text.not_isBlank_of_isDigit (List.all_eq_true.1 hall c hmem)] at hblank
            cases hblank
          · cases hn
    · cases h

theorem not_isBlank_of_magnitude? {negative : Bool} {d : Decimal} (h : magnitude? negative t = some d) :
    ∀ c ∈ t, Text.isBlank c = false := by
  have hdigits : ∀ u : Text, ∀ c ∈ u.takeWhile Char.isDigit, Text.isBlank c = false := by
    intro u c hc
    exact Text.not_isBlank_of_isDigit (List.all_eq_true.1 List.all_takeWhile c hc)
  have hexponent : ∀ {u : Text} {f : Int → Decimal}, (exponent? u).map f = some d → ∀ c ∈ u, Text.isBlank c = false := by
    intro u f hu
    obtain ⟨e, he, -⟩ := Option.map_eq_some_iff.1 hu
    exact not_isBlank_of_exponent? he
  unfold magnitude? at h
  intro c hc
  rw [← List.takeWhile_append_dropWhile (p := Char.isDigit) (l := t), List.mem_append] at hc
  rcases hc with hc | hc
  · exact hdigits t c hc
  · simp only at h
    split at h
    · rename_i u hpoint
      split at h
      · cases h
      · rw [hpoint] at hc
        rcases List.mem_cons.1 hc with rfl | hc
        · rfl
        · rw [← List.takeWhile_append_dropWhile (p := Char.isDigit) (l := u), List.mem_append] at hc
          rcases hc with hc | hc
          · exact hdigits u c hc
          · exact hexponent h c hc
    · split at h
      · cases h
      · exact hexponent h c hc

/-- There is no white space in a text that is read as a number. -/
theorem not_isBlank_of_read? {x : Float} (h : read? t = some x) : ∀ c ∈ t, Text.isBlank c = false := by
  intro c hc
  by_contra hblank
  rw [Bool.not_eq_false] at hblank
  have hrest := mem_splitSign hc hblank
  have hlower : c ∈ (splitSign t).2.map Char.toLower := by
    rw [← Text.toLower_of_isBlank hblank]
    exact List.mem_map_of_mem hrest
  have hword : ∀ w ∈ ["inf", "infinity", "nan"], (splitSign t).2.map Char.toLower ≠ w.toList := by
    intro w hw heq
    have hfree : ∀ w ∈ ["inf", "infinity", "nan"], w.toList.any Text.isBlank = false := by decide
    rw [heq] at hlower
    have hany := List.any_eq_true.2 ⟨c, hlower, hblank⟩
    rw [hfree w hw] at hany
    cases hany
  unfold read? at h
  simp only [hword "inf" (by simp), hword "infinity" (by simp), hword "nan" (by simp), or_self, if_false] at h
  obtain ⟨d, hd, -⟩ := Option.map_eq_some_iff.1 h
  rw [not_isBlank_of_magnitude? hd c hrest] at hblank
  cases hblank

end Decimal

namespace Argument
variable {a : Argument} {x : Float}

/-- The finite number that an argument stands for: itself, or what is written between white space. -/
inductive Means : Argument → Float → Prop where
  | number {x : Float} (hfinite : x.isFinite = true) : Means (.number x) x
  | text {before written after : Text} {x : Float} (hbefore : ∀ c ∈ before, Text.isBlank c = true)
      (hafter : ∀ c ∈ after, Text.isBlank c = true) (hread : Decimal.read? written = some x) (hfinite : x.isFinite = true) :
      Means (.text (before ++ written ++ after)) x

/-- The last pair of a name in a list of arguments has the given argument. -/
def Last (arguments : List (Text × Argument)) (name : Text) (a : Argument) : Prop :=
  ∃ before after, arguments = before ++ (name, a) :: after ∧ ∀ pair ∈ after, pair.1 ≠ name

/-- A list of arguments gives a number to a name: the last pair of the name has it. -/
def Gives (arguments : List (Text × Argument)) (name : Text) (x : Float) : Prop := ∃ a, Last arguments name a ∧ Means a x

/-- Why a list of arguments gives no number to a variable: there is no pair of its name, or the last one has no finite number. -/
inductive Denies (arguments : List (Text × Argument)) (letter : Char) : UserFault → Prop where
  | missing (h : ∀ pair ∈ arguments, pair.1 ≠ [letter]) : Denies arguments letter (.missingVariable [letter])
  | notDecimal {a : Argument} (hlast : Last arguments [letter] a) (h : ∀ x, ¬ Means a x) :
      Denies arguments letter (.notDecimal [letter] a.shown)

/-- Why a list of arguments is refused: the first variable, in the order of the declaration, that gets no number from it. -/
def Refused (arguments : List (Text × Argument)) (letters : List Char) (fault : UserFault) : Prop :=
  ∃ before letter after, letters = before ++ letter :: after ∧ (∀ earlier ∈ before, ∃ x, Gives arguments [earlier] x) ∧
    Denies arguments letter fault

/-- An argument means the finite number it is read as. -/
theorem means_iff : Means a x ↔ a.toFinite? = some x := by
  unfold toFinite?
  rw [Option.filter_eq_some_iff]
  constructor
  · intro h
    cases h with
    | number hfinite => exact ⟨rfl, hfinite⟩
    | text hbefore hafter hread hfinite =>
      refine ⟨?_, hfinite⟩
      simp only
      rw [Text.trim_append hbefore hafter, Text.trim_eq_self (Decimal.not_isBlank_of_read? hread), hread]
  · rintro ⟨hvalue, hfinite⟩
    cases a with
    | number y =>
      obtain rfl : y = x := Option.some.inj hvalue
      exact .number hfinite
    | text w =>
      obtain ⟨before, after, hbefore, hafter, hw⟩ := Text.exists_trim w
      rw [hw]
      exact .text hbefore hafter hvalue hfinite

/-- The last value of a name is the one that is found. -/
theorem last?_eq_some_iff {arguments : List (Text × Argument)} {name : Text} :
    last? arguments name = some a ↔ Last arguments name a := by
  unfold last? Last
  rw [List.lookup_eq_some_iff]
  constructor
  · rintro ⟨after, before, heq, hafter⟩
    refine ⟨before.reverse, after.reverse, ?_, ?_⟩
    · simpa only [List.reverse_reverse, List.reverse_append, List.reverse_cons, List.append_assoc, List.singleton_append] using
        congrArg List.reverse heq
    · intro pair hpair heq'
      have hne := hafter pair (List.mem_reverse.1 hpair)
      rw [heq', bne_self_eq_false] at hne
      cases hne
  · rintro ⟨before, after, rfl, hafter⟩
    refine ⟨after.reverse, before.reverse, by simp, ?_⟩
    intro pair hpair
    exact bne_iff_ne.2 (Ne.symm (hafter pair (List.mem_reverse.1 hpair)))

/-- No value is found for a name that no pair has. -/
theorem last?_eq_none_iff {arguments : List (Text × Argument)} {name : Text} :
    last? arguments name = none ↔ ∀ pair ∈ arguments, pair.1 ≠ name := by
  unfold last?
  rw [List.lookup_eq_none_iff]
  constructor
  · intro h pair hpair heq
    have hne := h pair (List.mem_reverse.2 hpair)
    rw [heq, bne_self_eq_false] at hne
    cases hne
  · intro h pair hpair
    exact bne_iff_ne.2 (Ne.symm (h pair (List.mem_reverse.1 hpair)))

section
variable {arguments arguments' : List (Text × Argument)} {letter : Char} {letters : List Char} {fault : UserFault}

/-- A variable has the number that the arguments give it, and no other. -/
theorem valueOf_eq_ok_iff : valueOf arguments letter = .ok x ↔ Gives arguments [letter] x := by
  unfold valueOf Gives
  simp only [← last?_eq_some_iff, means_iff]
  cases last? arguments [letter] with
  | none => simp
  | some a => cases ha : a.toFinite? <;> simp [ha]

/-- The value of a letter is denied with the fault of its last argument. -/
theorem valueOf_eq_error_iff : valueOf arguments letter = .error fault ↔ Denies arguments letter fault := by
  unfold valueOf
  constructor
  · intro h
    split at h
    · rename_i hlast
      rw [← Except.error.inj h]
      exact .missing (last?_eq_none_iff.1 hlast)
    · rename_i a hlast
      split at h
      · cases h
      · rename_i hnone
        rw [← Except.error.inj h]
        refine .notDecimal (last?_eq_some_iff.1 hlast) fun x hx => ?_
        rw [means_iff, hnone] at hx
        cases hx
  · intro h
    cases h with
    | missing h => rw [last?_eq_none_iff.2 h]
    | @notDecimal a hlast h =>
      rw [last?_eq_some_iff.2 hlast]
      cases ha : a.toFinite? with
      | none => simp [ha]
      | some x => exact absurd (means_iff.2 ha) (h x)

/-- Arguments that give the variables the same numbers bind them alike. -/
theorem bind_congr (h : ∀ letter ∈ letters, ∃ x, Gives arguments [letter] x ∧ Gives arguments' [letter] x) :
    bind arguments letters = bind arguments' letters := by
  refine mapM_congr fun letter hletter => ?_
  obtain ⟨x, hx, hx'⟩ := h letter hletter
  rw [valueOf_eq_ok_iff.2 hx, valueOf_eq_ok_iff.2 hx']

/-- Arguments are refused with the fault of the first letter that has one. -/
theorem bind_eq_error_iff : bind arguments letters = .error fault ↔ Refused arguments letters fault := by
  unfold bind Refused
  rw [mapM_eq_error_iff]
  simp only [valueOf_eq_ok_iff, valueOf_eq_error_iff]

/-- Arguments are refused exactly when some variable gets no number. -/
theorem exists_refused_iff : (∃ fault, Refused arguments letters fault) ↔ ∃ letter ∈ letters, ∀ x, ¬ Gives arguments [letter] x := by
  have hbound : (∃ values, bind arguments letters = .ok values) ↔ ∀ letter ∈ letters, ∃ x, Gives arguments [letter] x := by
    unfold bind
    rw [exists_mapM_iff]
    simp only [valueOf_eq_ok_iff]
  simp only [← bind_eq_error_iff]
  constructor
  · rintro ⟨fault, hfault⟩
    by_contra hgiven
    push Not at hgiven
    obtain ⟨values, hvalues⟩ := hbound.2 hgiven
    rw [hfault] at hvalues
    cases hvalues
  · rintro ⟨letter, hletter, hnone⟩
    cases hvalues : bind arguments letters with
    | error fault => exact ⟨fault, rfl⟩
    | ok values =>
      obtain ⟨x, hx⟩ := hbound.1 ⟨values, hvalues⟩ letter hletter
      exact absurd hx (hnone x)

end

/-- Variables are bound to finite numbers. -/
theorem isFinite_of_bind {arguments : List (Text × Argument)} {letters : List Char} {values : List Float}
    (h : bind arguments letters = .ok values) : ∀ x ∈ values, x.isFinite = true := by
  intro x hx
  obtain ⟨letter, -, hvalue⟩ := exists_of_mem_mapM h hx
  rw [valueOf] at hvalue
  split at hvalue
  · cases hvalue
  · split at hvalue
    · rename_i y hy
      rw [toFinite?.eq_def, Option.filter_eq_some_iff] at hy
      exact Except.ok.inj hvalue ▸ hy.2
    · cases hvalue

end Argument

end FormulaDag
