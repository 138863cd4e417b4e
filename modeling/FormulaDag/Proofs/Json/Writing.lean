import Mathlib
import FormulaDag.Json.Reader
import FormulaDag.Json.Writer

/-!
# Reading what was written

A string that is written with its escape sequences is read back as it was, whatever characters it holds, and so is an object of
strings. Ordering the members of an object by their names loses none as long as the names differ.
-/

namespace FormulaDag.Json

/-- The hexadecimal digit of a number below sixteen has that number as its value. -/
theorem hexDigit?_hexDigit {n : Nat} (h : n < 16) : hexDigit? (hexDigit n) = some n := by
  have hall : ∀ n, n < 16 → hexDigit? (hexDigit n) = some n := by decide
  exact hall n h

/-- A control character has no more than two hexadecimal digits. -/
theorem hexFour?_control {c : Char} (h : c.toNat < 0x20) :
    hexFour? '0' '0' (hexDigit (c.toNat / 16)) (hexDigit (c.toNat % 16)) = some c.toNat := by
  have hzero : hexDigit? '0' = some 0 := by decide
  have hvalue : ((0 * 16 + 0) * 16 + c.toNat / 16) * 16 + c.toNat % 16 = c.toNat := by omega
  simp only [hexFour?, hzero, hexDigit?_hexDigit (show c.toNat / 16 < 16 by omega), hexDigit?_hexDigit (Nat.mod_lt _ (by decide)),
    Option.bind_eq_bind, Option.bind_some, Option.pure_def, hvalue]

/-- A character that stands for itself is read as it is. -/
theorem stringBody_plain {c : Char} (hquote : c ≠ '"') (hslash : c ≠ '\\') (hcontrol : ¬ c.toNat < 0x20) (rest : Text) :
    stringBody (c :: rest) = (stringBody rest).map fun (s, after) => (c :: s, after) := by
  rw [stringBody.eq_def]
  split <;> simp_all

/-- The letter after a backslash is read as the character that it stands for. -/
theorem stringBody_escape {letter c : Char} (hletter : letter ≠ 'u') (h : escape? letter = some c) (rest : Text) :
    stringBody ('\\' :: letter :: rest) = (stringBody rest).map fun (s, after) => (c :: s, after) := by
  rw [stringBody]
  · simp [h]
  · exact fun _ _ _ _ _ hwritten _ => hletter hwritten

/-- Every character is read back from how it is written inside of a string. -/
theorem stringBody_writeChar (c : Char) (rest : Text) :
    stringBody (writeChar c ++ rest) = (stringBody rest).map fun (s, after) => (c :: s, after) := by
  unfold writeChar
  split_ifs with hquote hslash hb hf hn hr ht hcontrol
  · subst hquote
    exact stringBody_escape (by decide) rfl rest
  · subst hslash
    exact stringBody_escape (by decide) rfl rest
  · subst hb
    exact stringBody_escape (by decide) rfl rest
  · subst hf
    exact stringBody_escape (by decide) rfl rest
  · subst hn
    exact stringBody_escape (by decide) rfl rest
  · subst hr
    exact stringBody_escape (by decide) rfl rest
  · subst ht
    exact stringBody_escape (by decide) rfl rest
  · have hlow : ¬ (0xD800 ≤ c.toNat ∧ c.toNat < 0xE000) := by omega
    simp only [List.cons_append, List.nil_append]
    rw [stringBody, hexFour?_control hcontrol]
    simp only [if_neg hlow, Char.ofNat_toNat]
  · exact stringBody_plain hquote hslash hcontrol rest

/-- Every string is read back from its written form, up to its closing quotation mark. -/
theorem stringBody_flatMap_writeChar (t rest : Text) : stringBody (t.flatMap writeChar ++ '"' :: rest) = some (t, rest) := by
  induction t with
  | nil => rw [List.flatMap_nil, List.nil_append, stringBody]
  | cons c t ih => rw [List.flatMap_cons, List.append_assoc, stringBody_writeChar, ih, Option.map_some]

theorem skip_cons {c : Char} (h : isBlank c = false) (rest : Text) : skip (c :: rest) = c :: rest := by
  rw [skip, List.dropWhile_cons_of_neg (by simp [h])]

theorem writeString_append (t rest : Text) : writeString t ++ rest = '"' :: (t.flatMap writeChar ++ '"' :: rest) := by
  simp [writeString]

theorem value_writeString (depth : Nat) (t rest : Text) : value depth (writeString t ++ rest) = some (.string t, rest) := by
  rw [writeString_append, value.eq_def]
  simp only [skip_cons (show isBlank '"' = false by decide), if_true, stringBody_flatMap_writeChar, Option.map_some]

/-- A member of an object that is a string. -/
def writeMember (item : Text × Text) : Text := writeString item.1 ++ ':' :: writeString item.2

theorem member_writeMember (depth : Nat) (item : Text × Text) (rest : Text) :
    member (value depth) (writeMember item ++ rest) = some ((item.1, .string item.2), rest) := by
  rw [writeMember, List.append_assoc, writeString_append, member, skip_cons (by decide)]
  simp only [stringBody_flatMap_writeChar, Option.bind_eq_bind, Option.bind_some, List.cons_append]
  rw [skip_cons (by decide)]
  simp only [value_writeString, Option.bind_some]

theorem join_singleton (separator s : Text) : Text.join separator [s] = s := by
  simp [Text.join]

theorem join_cons_cons (separator s t : Text) (parts : List Text) :
    Text.join separator (s :: t :: parts) = s ++ separator ++ Text.join separator (t :: parts) := by
  simp [Text.join]

/-- Members separated by commas are read back one after the other. -/
theorem items_writeMember (depth : Nat) (item : Text × Text) (others : List (Text × Text)) {turns : Nat}
    (h : others.length < turns) (rest : Text) :
    items (member (value depth)) '}' turns (Text.join [','] ((item :: others).map writeMember) ++ '}' :: rest) =
      some ((item :: others).map (fun e => (e.1, .string e.2)), rest) := by
  induction others generalizing item turns with
  | nil =>
    obtain ⟨turns, rfl⟩ := Nat.exists_eq_succ_of_ne_zero (Nat.ne_of_gt h)
    rw [List.map_singleton, join_singleton, items, member_writeMember]
    simp only [skip_cons (show isBlank '}' = false by decide), if_true, List.map_cons, List.map_nil]
  | cons next others ih =>
    obtain ⟨turns, rfl⟩ := Nat.exists_eq_succ_of_ne_zero (Nat.ne_of_gt (Nat.zero_lt_of_lt h))
    have hread := ih next (Nat.lt_of_succ_lt_succ h)
    rw [List.map_cons] at hread
    rw [List.map_cons, List.map_cons, join_cons_cons, List.append_assoc, List.append_assoc, items, member_writeMember]
    simp only [List.singleton_append, skip_cons (show isBlank ',' = false by decide), hread, Option.map_some,
      show (',' = '}') = False by decide, if_false, if_true, List.map_cons]

/-- The members of an object are no more than its characters. -/
theorem length_le_join (items : List (Text × Text)) : items.length ≤ (Text.join [','] (items.map writeMember)).length := by
  induction items with
  | nil => simp
  | cons item others ih =>
    have hlong : 1 ≤ (writeMember item).length := by simp [writeMember, writeString]
    cases others with
    | nil => simpa [Text.join] using hlong
    | cons next others =>
      rw [List.map_cons, List.map_cons, join_cons_cons]
      rw [List.map_cons] at ih
      simp only [List.length_append, List.length_cons] at ih ⊢
      omega

/-- An object of strings is read back member by member, in the order in which they are written. -/
theorem read?_writeObject (items : List (Text × Text)) :
    read? (writeObject items) = some (.object (items.map fun e => (e.1, .string e.2))) := by
  have hgroup : group (member (value 126)) '}' (Text.join [','] (items.map writeMember) ++ ['}']) =
      some (items.map (fun e => (e.1, .string e.2)), []) := by
    cases items with
    | nil => rfl
    | cons item others =>
      have hlength : others.length < (Text.join [','] ((item :: others).map writeMember) ++ ['}']).length + 1 := by
        have := length_le_join (item :: others)
        simp only [List.length_append, List.length_cons] at this ⊢
        omega
      rw [← items_writeMember 126 item others hlength, group]
      have hfirst : ∃ after, Text.join [','] ((item :: others).map writeMember) ++ ['}'] = '"' :: after := by
        cases others with
        | nil => exact ⟨_, by rw [List.map_singleton, join_singleton, writeMember, List.append_assoc, writeString_append]⟩
        | cons next others =>
          rw [List.map_cons, List.map_cons, join_cons_cons]
          exact ⟨_, by rw [List.append_assoc, List.append_assoc, writeMember, List.append_assoc, writeString_append]⟩
      obtain ⟨after, hfirst⟩ := hfirst
      rw [hfirst, skip_cons (by decide)]
      rfl
  have hobject : value maxDepth (writeObject items) = some (.object (items.map fun e => (e.1, .string e.2)), []) := by
    have hwritten : writeObject items = '{' :: (Text.join [','] (items.map writeMember) ++ ['}']) := rfl
    rw [hwritten, value.eq_def]
    simp only [skip_cons (show isBlank '{' = false by decide), show ('{' = '"') = False by decide, show ('{' = '[') = False by decide, if_false, if_true, maxDepth, hgroup,
      Option.map_some]
  rw [read?, hobject]
  rfl

section
variable {α : Type}

/-- A member with a new name is put somewhere among the others. -/
theorem insertMember_perm {name : Text} (value : α) {l : List (Text × α)} (h : name ∉ l.map Prod.fst) :
    (insertMember name value l).Perm ((name, value) :: l) := by
  induction l with
  | nil => exact .refl _
  | cons first rest ih =>
    obtain ⟨other, kept⟩ := first
    rw [List.map_cons, List.mem_cons, not_or] at h
    rw [insertMember]
    split
    · exact .refl _
    · rw [if_neg h.1]
      exact ((ih h.2).cons _).trans (.swap _ _ _)

/-- Members with different names are put in order and none is lost. -/
theorem members_perm {items : List (Text × α)} (h : (items.map Prod.fst).Nodup) : (members items).Perm items := by
  have hfold : ∀ sorted : List (Text × α), ((items ++ sorted).map Prod.fst).Nodup →
      (items.foldl (fun sorted item => insertMember item.1 item.2 sorted) sorted).Perm (items ++ sorted) := by
    clear h
    induction items with
    | nil => exact fun sorted _ => .refl _
    | cons item rest ih =>
      intro sorted h
      rw [List.cons_append, List.map_cons, List.nodup_cons] at h
      have hnew : item.1 ∉ sorted.map Prod.fst := fun hmem => h.1 (by simp [List.mem_map.1 hmem])
      have hperm := insertMember_perm item.2 hnew
      have hmoved : (rest ++ insertMember item.1 item.2 sorted).Perm (item :: (rest ++ sorted)) :=
        (hperm.append_left rest).trans List.perm_middle
      refine (ih _ ?_).trans hmoved
      rw [(hmoved.map Prod.fst).nodup_iff, List.map_cons, List.nodup_cons]
      exact h
  simpa [members] using hfold [] (by simpa using h)

end

end FormulaDag.Json
