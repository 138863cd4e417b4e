import FormulaDag.Proofs.Rule.Numerals
import FormulaDag.Proofs.Rule.Insertion

/-!
# Calls of functions

A call of a function of the user is its name, with or without a backslash in front, and the token of its argument. The rule of a function
matches calls and nothing else. A search stops at or before every place where the guard agrees, so each call is found that does not begin
inside of a command word. A backslash right after a command word counts as such a place, although it begins a command of its own.
-/

namespace FormulaDag

namespace Rule
variable {r : Rule}

/-- A search finds something at or before every place that would do. -/
theorem exists_search_of_hitAt {behind u v : Text} {h : Hit} (hh : r.hitAt (u.reverse ++ behind) v = some h) :
    ∃ w u' k, u = w ++ u' ∧ r.search behind (u ++ v) = some (w.reverse ++ behind, k) := by
  induction u generalizing behind with
  | nil => exact ⟨[], [], h, rfl, search_of_hitAt hh⟩
  | cons c u ih =>
    cases hhere : r.hitAt behind (c :: (u ++ v)) with
    | some k => exact ⟨[], c :: u, k, rfl, search_of_hitAt hhere⟩
    | none =>
      have hlater : r.hitAt (u.reverse ++ (c :: behind)) v = some h := by simpa using hh
      obtain ⟨w, u', k, rfl, hk⟩ := ih hlater
      refine ⟨c :: w, u', k, rfl, ?_⟩
      rw [List.cons_append, search_cons_of_hitAt hhere, hk]
      simp

end Rule

namespace UserFunction
variable (f : UserFunction)

/-- What may stand before the name in a call. -/
def IsSign (sign : Text) : Prop := sign = [] ∨ sign = ['\\']

/-- A call of a function whose argument has the given number. -/
def call (sign digits : Text) : Text := sign ++ f.name ++ (Piece.token digits).text

/-- The rule of a function matches calls only. -/
theorem call_of_mem_hits {t : Text} {h : Hit} (hh : h ∈ f.rule.pattern.hits t) : ∃ sign digits, IsSign sign ∧
    Token.split? ((Piece.token digits).text ++ h.rest) = some (digits, h.rest) ∧ t = f.call sign digits ++ h.rest ∧
      h.taken = f.call sign digits ∧ h.parts = [("parameter", (Piece.token digits).text)] := by
  obtain ⟨k, hk, l, hl, rfl⟩ := Pattern.mem_hits_sequence hh
  obtain ⟨m, hm, n, hn, rfl⟩ := Pattern.mem_hits_sequence hk
  obtain ⟨hname, htaken, hparts⟩ := Pattern.mem_hits_literal hn
  simp only [Pattern.hits, List.mem_map] at hl
  obtain ⟨token, htoken, rfl⟩ := hl
  obtain ⟨digits, hsplit, hdigits, hunnamed⟩ := Pattern.split?_of_mem_hits_token htoken
  have hwritten : n.rest = (Piece.token digits).text ++ token.rest := by
    rw [Token.split?_eq_some hsplit]
    simp [Piece.text]
  have hsign : IsSign m.taken ∧ t = m.taken ++ m.rest ∧ m.parts = [] := by
    simp only [Pattern.hits, Pattern.word, List.mem_append, List.mem_singleton] at hm
    rcases hm with hm | rfl
    · obtain ⟨ht, hsign, hparts⟩ := Pattern.mem_hits_literal hm
      exact ⟨.inr hsign, by rw [hsign, ht], hparts⟩
    · exact ⟨.inl rfl, rfl, rfl⟩
  refine ⟨m.taken, digits, hsign.1, hwritten ▸ hsplit, ?_, ?_, ?_⟩
  · rw [hsign.2.1, hname, hwritten, call]
    simp
  · simp [htaken, hdigits, call]
  · simp [hparts, hsign.2.2, hdigits, hunnamed]

/-- The rule of a function matches every call. -/
theorem first?_call {sign digits : Text} (hsign : IsSign sign) (hne : digits ≠ []) (hdigits : ∀ c ∈ digits, Text.isDecimalDigit c = true)
    (rest : Text) : f.rule.pattern.first? (f.call sign digits ++ rest) =
      some ⟨f.call sign digits, rest, [("parameter", (Piece.token digits).text)]⟩ := by
  have hsplit : Token.split? ((Piece.token digits).text ++ rest) = some (digits, rest) := by
    simpa [Piece.text] using Token.split?_digits hne hdigits rest
  have hname : Pattern.hits (.literal f.name) (f.name ++ ((Piece.token digits).text ++ rest)) =
      [⟨f.name, (Piece.token digits).text ++ rest, []⟩] := by
    rw [Pattern.hits, Text.isPrefixOf?_eq_some.2 rfl]
  have htoken : Pattern.hits (.named "parameter" .token) ((Piece.token digits).text ++ rest) =
      [⟨(Piece.token digits).text, rest, [("parameter", (Piece.token digits).text)]⟩] := by
    rw [Pattern.hits, Pattern.hits_token_of_split? hsplit]
    rfl
  have hwhole : ∃ more, Pattern.hits (.optional (.word "\\")) (f.call sign digits ++ rest) =
      ⟨sign, f.name ++ ((Piece.token digits).text ++ rest), []⟩ :: more := by
    rcases hsign with rfl | rfl
    · obtain ⟨c, name, hcons⟩ := List.exists_cons_of_ne_nil f.nonempty
      have hc : c ≠ '\\' := by
        rintro rfl
        exact absurd (List.all_eq_true.1 f.letters '\\' (by simp [hcons])) (by decide)
      refine ⟨[], ?_⟩
      rw [call, Pattern.hits, Pattern.word, Pattern.hits, hcons]
      simp [List.isPrefixOf?, hc.symm]
    · refine ⟨[⟨[], f.call ['\\'] digits ++ rest, []⟩], ?_⟩
      rw [Pattern.hits, Pattern.word, Pattern.hits, call]
      simp [List.isPrefixOf?]
  obtain ⟨more, hmore⟩ := hwhole
  change (Pattern.hits (.sequence (.sequence (.optional (.word "\\")) (.literal f.name)) (.named "parameter" .token)) _).head? = _
  rw [Pattern.hits, Pattern.hits, hmore]
  simp only [List.flatMap_cons, hname, List.map_cons, List.map_nil, List.cons_append, List.nil_append, htoken, List.head?_cons]
  rfl

/-- A call has its argument for its only operand, unless the number in it is no index. -/
theorem occurrence_call {h : Hit} {digits : Text} (hparts : h.parts = [("parameter", (Piece.token digits).text)])
    (hsplit : Token.split? ((Piece.token digits).text ++ h.rest) = some (digits, h.rest)) (id : Nat) (behind : Text) :
    f.rule.occurrence id behind h = match Index.read? digits with
      | some k => .ok ⟨id, Text.byteSize behind, Text.byteSize behind + Text.byteSize h.taken, h.taken, none, [some (.index k)]⟩
      | none => .error (.badArgument "parameter" (Piece.token digits).text) := by
  have hliteral : Slot.literal? (Piece.token digits).text = none := Slot.literal?_eq_none (by simp [Piece.text])
  have honly : Token.only? (Piece.token digits).text = Index.read? digits := by
    obtain ⟨hne, hdigits⟩ := Token.digits_of_split? hsplit
    have halone : Token.split? (Piece.token digits).text = some (digits, []) := by
      simpa [Piece.text] using Token.split?_digits hne hdigits []
    rw [Token.only?, halone]
  have hslots : f.rule.slots = [{ name := "parameter" }] := rfl
  have hread : Slot.operand f.rule.name h.parts { name := "parameter" } = match Index.read? digits with
      | some k => .ok (some (.index k))
      | none => .error (.badArgument "parameter" (Piece.token digits).text) := by
    rw [Slot.operand, hparts]
    simp only [List.lookup_cons_self, Slot.read, hliteral, if_true, honly]
    cases Index.read? digits <;> rfl
  have hselector : f.rule.selector = none := rfl
  rw [Rule.occurrence_eq, Rule.selected, hselector, hslots]
  simp only [List.mapM_cons, List.mapM_nil, hread]
  cases Index.read? digits <;> rfl

/-- A text that is a call has the index of its argument for its only operand. -/
theorem operands_of_findWhole {f : UserFunction} {id : Nat} {t : Text} {o : Occurrence} (h : f.rule.findWhole id t = .ok (some o)) :
    ∃ k, o.operands = [some (.index k)] := by
  obtain ⟨hit, hfirst, -, -, ho⟩ := Rule.findWhole_eq_some f.isAligned_rule h
  obtain ⟨-, digits, -, hsplit, -, -, hparts⟩ := f.call_of_mem_hits (List.mem_of_mem_head? hfirst)
  rw [f.occurrence_call hparts hsplit] at ho
  cases hread : Index.read? digits with
  | none =>
    rw [hread] at ho
    cases ho
  | some k =>
    rw [hread] at ho
    exact ⟨k, by rw [← Except.ok.inj ho]⟩

/-- A call is found at its place or an earlier one, wherever it stands but inside of a command word. When the number of the call that is
met first is no index, this is reported instead. -/
theorem find_call (id : Nat) {before sign digits : Text} (after : Text) (hsign : IsSign sign) (hne : digits ≠ [])
    (hdigits : ∀ c ∈ digits, Text.isDecimalDigit c = true) (hplace : Command.isInside before.reverse = false) :
    (∃ o, f.rule.find id (before ++ (f.call sign digits ++ after)) = .ok (some o) ∧ o.start ≤ Text.byteSize before) ∨
      ∃ outer sign' digits' rest, before ++ (f.call sign digits ++ after) = outer ++ (f.call sign' digits' ++ rest) ∧
        Text.byteSize outer ≤ Text.byteSize before ∧ Index.read? digits' = none ∧
        f.rule.find id (before ++ (f.call sign digits ++ after)) = .error (.badArgument "parameter" (Piece.token digits').text) := by
  have hhit : f.rule.hitAt (before.reverse ++ []) (f.call sign digits ++ after) ≠ none := by
    rw [Rule.hitAt, f.first?_call hsign hne hdigits, List.append_nil]
    simp [rule, hplace]
  obtain ⟨h, hh⟩ := Option.ne_none_iff_exists'.1 hhit
  obtain ⟨outer, skipped, k, rfl, hk⟩ := Rule.exists_search_of_hitAt hh
  obtain ⟨u, v, hparts, hu, hfirst, -⟩ := Rule.search_eq_some hk
  obtain rfl : u = outer := by simpa using hu.symm
  obtain ⟨sign', digits', -, hsplit, rfl, -, hnamed⟩ := f.call_of_mem_hits (List.mem_of_mem_head? hfirst)
  have hearlier : Text.byteSize u ≤ Text.byteSize (u ++ skipped) := by
    rw [Text.byteSize_append]
    exact Nat.le_add_right _ _
  rw [Rule.find, Rule.locate, hk]
  simp only [f.occurrence_call hnamed hsplit, List.append_nil, Text.byteSize_reverse]
  cases hread : Index.read? digits' with
  | some i => exact .inl ⟨_, rfl, hearlier⟩
  | none => exact .inr ⟨u, sign', digits', k.rest, hparts, hearlier, hread, rfl⟩

/-- A call right after letters that belong to no command. -/
theorem find_call_fibonacci : Command.isInside "2\\pm@/3/@xy".toList.reverse = false ∧
    ((∃ o, fibonacci.rule.find 0 "2\\pm@/3/@xyfib@/12/@-1".toList = .ok (some o) ∧ o.start ≤ Text.byteSize "2\\pm@/3/@xy".toList) ∨
      ∃ outer sign' digits' rest, "2\\pm@/3/@xyfib@/12/@-1".toList = outer ++ (fibonacci.call sign' digits' ++ rest) ∧
        Text.byteSize outer ≤ Text.byteSize "2\\pm@/3/@xy".toList ∧ Index.read? digits' = none ∧
        fibonacci.rule.find 0 "2\\pm@/3/@xyfib@/12/@-1".toList = .error (.badArgument "parameter" (Piece.token digits').text)) :=
  have hplace : Command.isInside "2\\pm@/3/@xy".toList.reverse = false := by decide
  have hdigits : ∀ c ∈ "12".toList, Text.isDecimalDigit c = true := by simp [Text.isDecimalDigit]
  ⟨hplace, fibonacci.find_call 0 "-1".toList (.inl rfl) (by decide) hdigits hplace⟩

/-- A call right after a command is overlooked: its backslash is taken for a part of the command word before it. -/
theorem exists_call_overlooked : "\\pm\\fib@/1/@".toList = "\\pm".toList ++ fibonacci.call ['\\'] ['1'] ∧
    fibonacci.rule.find 0 "\\pm\\fib@/1/@".toList = .ok none :=
  ⟨by decide, by decide +kernel⟩

end UserFunction

end FormulaDag
