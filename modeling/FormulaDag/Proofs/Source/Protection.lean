import Mathlib
import FormulaDag.RuleSet
import FormulaDag.Source.Protection

/-!
# Unprotected characters

An unprotected character cuts the mask of a text in two: what stands on its one side is protected or not whatever stands on the other.
So is every character that is neither a letter nor a backslash. It follows that unprotected characters may be replaced by a sign that
is no letter without a change to the mask.
-/

namespace FormulaDag

namespace Source

section
variable {name a b : Text} {c : Char} {n i : Nat} {inWord : Bool} {t : Text}

/-- The characters that an occurrence has still to take are protected. -/
theorem getElem?_nameMask_of_lt (hi : i < n) (ht : i < t.length) : (nameMask name n t)[i]? = some true := by
  induction t generalizing n i with
  | nil => simp at ht
  | cons d rest ih =>
    obtain ⟨n, rfl⟩ := Nat.exists_eq_add_of_lt (Nat.zero_lt_of_lt hi)
    rw [Nat.zero_add, nameMask]
    cases i with
    | zero => rfl
    | succ i =>
      rw [List.getElem?_cons_succ]
      exact ih (by omega) (by simpa using ht)

/-- Occurrences of a name do not reach over a character outside of them. -/
theorem nameMask_append (hn : n ≤ a.length) (h : (nameMask name n (a ++ c :: b))[a.length]? = some false) :
    nameMask name n (a ++ c :: b) = nameMask name n a ++ false :: nameMask name 0 b := by
  induction a generalizing n with
  | nil =>
    obtain rfl := Nat.le_zero.1 hn
    rw [List.nil_append, nameMask] at h ⊢
    split
    · rename_i hfront
      simp [hfront] at h
    · rfl
  | cons d a ih =>
    cases n with
    | succ n =>
      rw [List.cons_append, nameMask] at h ⊢
      rw [ih (Nat.le_of_succ_le_succ hn) h]
      rfl
    | zero =>
      rw [List.cons_append, nameMask] at h ⊢
      by_cases hfront : name <+: d :: a
      · have hlong : name <+: d :: (a ++ c :: b) := hfront.trans ⟨c :: b, rfl⟩
        have hle : name.length - 1 ≤ a.length := by simpa using hfront.length_le
        rw [if_pos (List.isPrefixOf_iff_prefix.2 hlong)] at h ⊢
        rw [nameMask, if_pos (List.isPrefixOf_iff_prefix.2 hfront), ih hle h]
        rfl
      · -- a longer occurrence would take the character too
        have hlong : ¬ name <+: d :: (a ++ c :: b) := by
          intro hlong
          rw [if_pos (List.isPrefixOf_iff_prefix.2 hlong)] at h
          by_cases hle : name.length ≤ (d :: a).length
          · exact hfront (List.prefix_of_prefix_length_le hlong ⟨c :: b, rfl⟩ hle)
          · rw [List.length_cons, List.getElem?_cons_succ,
              getElem?_nameMask_of_lt (by simp only [List.length_cons] at hle; omega) (by simp)] at h
            cases h
        rw [if_neg (mt List.isPrefixOf_iff_prefix.1 hlong)] at h ⊢
        rw [nameMask, if_neg (mt List.isPrefixOf_iff_prefix.1 hfront), ih (Nat.zero_le _) h]
        rfl

theorem commandMask_true_eq (h : t.head?.any Char.isAlpha = false) : commandMask true t = commandMask false t := by
  cases t with
  | nil => rfl
  | cons d rest =>
    have hd : d.isAlpha = false := by simpa using h
    simp [commandMask, hd]

/-- Command words do not reach over a character outside of them. -/
theorem commandMask_append (h : (commandMask inWord (a ++ c :: b))[a.length]? = some false) :
    commandMask inWord (a ++ c :: b) = commandMask inWord a ++ false :: commandMask false b := by
  induction a generalizing inWord with
  | nil =>
    rw [List.nil_append, commandMask] at h ⊢
    split
    · rename_i hc
      rw [if_pos hc] at h
      have hhead : b.head?.any Char.isAlpha = false := by simpa using h
      rw [hhead, commandMask_true_eq hhead]
      rfl
    · rename_i hc
      rw [if_neg hc] at h
      split
      · rename_i hword
        simp [hword] at h
      · rfl
  | cons d a ih =>
    rw [List.cons_append, commandMask] at h ⊢
    rw [List.length_cons] at h
    split
    · rename_i hd
      rw [if_pos hd, List.getElem?_cons_succ] at h
      rw [commandMask, if_pos hd, ih h]
      -- a letter after the backslash would belong to its word
      have hhead : (a ++ c :: b).head?.any Char.isAlpha = a.head?.any Char.isAlpha := by
        cases a with
        | cons => rfl
        | nil =>
          by_contra hne
          have hc : c.isAlpha = true := by simpa using hne
          have hbackslash : c ≠ '\\' := by
            rintro rfl
            simp at hc
          simp [commandMask, hbackslash, hc] at h
      rw [hhead]
      rfl
    · rename_i hd
      rw [if_neg hd] at h
      rw [commandMask, if_neg hd]
      split
      · rename_i hword
        rw [if_pos hword, List.getElem?_cons_succ] at h
        rw [ih h]
        rfl
      · rename_i hword
        rw [if_neg hword, List.getElem?_cons_succ] at h
        rw [ih h]
        rfl

/-- Command words consist of letters after a backslash. -/
theorem isAlpha_of_commandMask (h : (commandMask inWord t)[i]? = some true) : ∃ d, t[i]? = some d ∧ (d = '\\' ∨ d.isAlpha = true) := by
  induction t generalizing inWord i with
  | nil => simp [commandMask] at h
  | cons d rest ih =>
    cases i with
    | succ i =>
      unfold commandMask at h
      split at h
      · exact ih h
      · split at h
        · exact ih h
        · exact ih h
    | zero =>
      refine ⟨d, rfl, ?_⟩
      unfold commandMask at h
      split at h
      · exact .inl ‹_›
      · split at h
        · rename_i hword
          exact .inr (Bool.and_eq_true_iff.1 hword).2
        · simp at h

/-- Occurrences of a name consist of its letters. -/
theorem isAlpha_of_nameMask (hne : name ≠ []) (hname : ∀ d ∈ name, d.isAlpha = true) (h : (nameMask name n t)[i]? = some true) :
    i < n ∨ ∃ d, t[i]? = some d ∧ d.isAlpha = true := by
  induction t generalizing n i with
  | nil => cases n <;> simp [nameMask] at h
  | cons d rest ih =>
    cases n with
    | succ n =>
      cases i with
      | zero => exact .inl (Nat.succ_pos n)
      | succ i => exact (ih h).imp Nat.succ_lt_succ id
    | zero =>
      rw [nameMask] at h
      split at h
      · rename_i hfront
        obtain ⟨more, hmore⟩ := List.isPrefixOf_iff_prefix.1 hfront
        have hletter : ∀ k, k < name.length → ∃ d', (d :: rest)[k]? = some d' ∧ d'.isAlpha = true := by
          intro k hk
          rw [← hmore, List.getElem?_append_left hk]
          exact ⟨name[k], List.getElem?_eq_getElem hk, hname _ (List.getElem_mem hk)⟩
        cases i with
        | zero => exact .inr (hletter 0 (List.length_pos_iff.2 hne))
        | succ i =>
          rcases ih h with hi | hi
          · exact .inr (hletter (i + 1) (by omega))
          · exact .inr hi
      · cases i with
        | zero => simp at h
        | succ i => exact (ih h).imp (fun hi => absurd hi (Nat.not_lt_zero i)) id

end

section
variable {names : List Text} {a b t : Text} {c : Char} {i : Nat}

theorem getElem?_zipWith_or {l l' : List Bool} : (l.zipWith (· || ·) l')[i]? = some false ↔ l[i]? = some false ∧ l'[i]? = some false := by
  rw [List.getElem?_zipWith]
  cases l[i]? <;> cases l'[i]? <;> simp

@[simp] theorem protection_nil : protection names [] = [] := List.eq_nil_of_length_eq_zero (length_protection names [])

/-- A character is unprotected when it belongs to no command word and to no occurrence of a name. -/
theorem getElem?_protection_eq_false : (protection names t)[i]? = some false ↔
    (commandMask false t)[i]? = some false ∧ ∀ name ∈ names, (nameMask name 0 t)[i]? = some false := by
  have hfold : ∀ mask : List Bool, (names.foldl (fun mask name => mask.zipWith (· || ·) (nameMask name 0 t)) mask)[i]? = some false ↔
      mask[i]? = some false ∧ ∀ name ∈ names, (nameMask name 0 t)[i]? = some false := by
    induction names with
    | nil => simp
    | cons name names ih =>
      intro mask
      rw [List.foldl_cons, ih, getElem?_zipWith_or, List.forall_mem_cons, and_assoc]
  exact hfold _

/-- An unprotected character cuts the mask in two. -/
theorem protection_append (h : (protection names (a ++ c :: b))[a.length]? = some false) :
    protection names (a ++ c :: b) = protection names a ++ false :: protection names b := by
  obtain ⟨hcommand, hnames⟩ := getElem?_protection_eq_false.1 h
  have hfold : ∀ mask mask' : List Bool, mask.length = a.length →
      names.foldl (fun mask name => mask.zipWith (· || ·) (nameMask name 0 (a ++ c :: b))) (mask ++ false :: mask') =
        names.foldl (fun mask name => mask.zipWith (· || ·) (nameMask name 0 a)) mask ++
          false :: names.foldl (fun mask name => mask.zipWith (· || ·) (nameMask name 0 b)) mask' := by
    clear h
    induction names with
    | nil => exact fun _ _ _ => rfl
    | cons name names ih =>
      intro mask mask' hlength
      obtain ⟨hname, hnames⟩ := List.forall_mem_cons.1 hnames
      rw [List.foldl_cons, List.foldl_cons, List.foldl_cons, nameMask_append (Nat.zero_le _) hname,
        List.zipWith_append (by rw [length_nameMask, hlength]), List.zipWith_cons_cons, Bool.or_false]
      exact ih hnames _ _ (by rw [List.length_zipWith, length_nameMask, hlength, Nat.min_self])
  rw [protection, commandMask_append hcommand, hfold _ _ (length_commandMask false a)]
  rfl

theorem marked_append (h : (protection names (a ++ c :: b))[a.length]? = some false) :
    marked names (a ++ c :: b) = marked names a ++ (c, false) :: marked names b := by
  rw [marked, protection_append h, List.zip_append (length_protection names a).symm]
  rfl

/-- A text with the unprotected characters of a kind replaced by a sign. -/
def veil (names : List Text) (p : Char → Bool) (t : Text) : Text :=
  (marked names t).map fun (c, isProtected) => if p c && !isProtected then '@' else c

variable (hnames : ∀ name ∈ names, name ≠ [] ∧ ∀ d ∈ name, d.isAlpha = true)
include hnames

/-- What is neither a letter nor a backslash is unprotected. -/
theorem getElem?_protection_of_sign (hi : t[i]? = some c) (hletter : c.isAlpha = false) (hbackslash : c ≠ '\\') :
    (protection names t)[i]? = some false := by
  have hlt := (List.getElem?_eq_some_iff.1 hi).1
  have hflag : ∀ mask : List Bool, mask.length = t.length → mask[i]? ≠ some true → mask[i]? = some false := by
    intro mask hlength hne
    rw [List.getElem?_eq_getElem (hlength ▸ hlt)] at hne ⊢
    simpa using hne
  refine getElem?_protection_eq_false.2 ⟨hflag _ (length_commandMask false t) fun htrue => ?_, fun name hname =>
    hflag _ (length_nameMask name 0 t) fun htrue => ?_⟩
  · obtain ⟨d, hd, hkind⟩ := isAlpha_of_commandMask htrue
    obtain rfl := Option.some.inj (hi.symm.trans hd)
    rcases hkind with hkind | hkind
    · exact hbackslash hkind
    · rw [hletter] at hkind
      cases hkind
  · obtain ⟨hne, hall⟩ := hnames name hname
    obtain ⟨d, hd, hkind⟩ := (isAlpha_of_nameMask hne hall htrue).resolve_left (Nat.not_lt_zero i)
    obtain rfl := Option.some.inj (hi.symm.trans hd)
    rw [hletter] at hkind
    cases hkind

/-- A sign cuts the mask in two. -/
theorem protection_append_sign (hletter : c.isAlpha = false) (hbackslash : c ≠ '\\') :
    protection names (a ++ c :: b) = protection names a ++ false :: protection names b :=
  protection_append (getElem?_protection_of_sign hnames (by simp) hletter hbackslash)

/-- So does a text of signs. -/
theorem protection_append_signs {signs : Text} (hne : signs ≠ []) (hsigns : ∀ d ∈ signs, d.isAlpha = false ∧ d ≠ '\\') :
    protection names (a ++ (signs ++ b)) = protection names a ++ (List.replicate signs.length false ++ protection names b) := by
  induction signs generalizing a with
  | nil => exact absurd rfl hne
  | cons d signs ih =>
    obtain ⟨⟨hletter, hbackslash⟩, hsigns⟩ := List.forall_mem_cons.1 hsigns
    rw [List.cons_append, protection_append_sign hnames hletter hbackslash, List.length_cons, List.replicate_succ, List.cons_append]
    congr 2
    cases signs with
    | nil => rfl
    | cons d' signs =>
      have hmore := ih (a := []) (by simp) hsigns
      rwa [protection_nil, List.nil_append, List.nil_append] at hmore

/-- Replacing unprotected characters by a sign keeps the mask. -/
theorem protection_veil (p : Char → Bool) (t : Text) : protection names (veil names p t) = protection names t := by
  induction hn : t.length using Nat.strong_induction_on generalizing t with
  | _ n ih =>
    subst hn
    by_cases h : ∃ a c b, t = a ++ c :: b ∧ (protection names t)[a.length]? = some false ∧ p c = true
    · obtain ⟨a, c, b, rfl, hflag, hc⟩ := h
      have hveil : veil names p (a ++ c :: b) = veil names p a ++ '@' :: veil names p b := by
        simp [veil, marked_append hflag, hc]
      rw [hveil, protection_append_sign hnames rfl (by decide), ih a.length (by simp) a rfl, ih b.length (by simp; omega) b rfl,
        protection_append hflag]
    · have hveil : veil names p t = t := by
        have hkept : ∀ e ∈ marked names t, (if p e.1 && !e.2 then '@' else e.1) = e.1 := by
          intro e he
          obtain ⟨i, hi, rfl⟩ := List.mem_iff_getElem.1 he
          refine if_neg fun hcond => h ?_
          simp only [marked, List.length_zip, length_protection, Nat.min_self] at hi
          simp only [marked, List.getElem_zip, Bool.and_eq_true, Bool.not_eq_true'] at hcond
          refine ⟨t.take i, t[i], t.drop (i + 1), by simp, ?_, hcond.1⟩
          rw [List.length_take, Nat.min_eq_left (Nat.le_of_lt hi), List.getElem?_eq_getElem (by rwa [length_protection]), hcond.2]
        rw [veil, List.map_congr_left hkept, marked, List.map_fst_zip (by rw [length_protection])]
      rw [hveil]

end

end Source

/-- The functions of the user have words as names. -/
theorem RuleSet.word_of_mem_functionNames (s : RuleSet) : ∀ name ∈ s.functionNames, name ≠ [] ∧ ∀ c ∈ name, c.isAlpha = true := by
  intro name hname
  obtain ⟨f, -, rfl⟩ := List.mem_map.1 hname
  exact ⟨f.nonempty, List.all_eq_true.1 f.letters⟩

end FormulaDag
