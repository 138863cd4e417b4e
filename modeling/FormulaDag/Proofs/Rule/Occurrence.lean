import FormulaDag.Proofs.Results
import FormulaDag.Proofs.Rule.Alignment

/-!
# Occurrences

What `Rule.search` and `Rule.locate` answer: the leftmost place at which the pattern matches and the guard agrees, with the text
before it and after it. The indices among the operands of an occurrence that takes up a whole text are references of the text.
-/

namespace FormulaDag

/-- A text without bytes is empty. -/
theorem Text.eq_nil_of_byteSize {t : Text} (h : Text.byteSize t = 0) : t = [] := by
  cases t with
  | nil => rfl
  | cons c t =>
    rw [Text.byteSize_cons] at h
    have := Char.utf8Size_pos c
    omega

/-- A reversed text has as many bytes. -/
theorem Text.byteSize_reverse (t : Text) : Text.byteSize t.reverse = Text.byteSize t := by
  induction t with
  | nil => rfl
  | cons c t ih =>
    rw [List.reverse_cons, Text.byteSize_append, Text.byteSize_cons, Text.byteSize_cons, Text.byteSize_nil, ih]
    omega

namespace Rule

/-- A place that a search finds: the texts before and after it, the preferred match there, and the consent of the guard. -/
theorem search_eq_some {r : Rule} {behind t before : Text} {h : Hit} (hs : r.search behind t = some (before, h)) :
    ∃ u v, t = u ++ v ∧ before = u.reverse ++ behind ∧ r.pattern.first? v = some h ∧ r.admits before v = true := by
  induction t generalizing behind with
  | nil =>
    simp only [search] at hs
    split at hs
    · rename_i k hk
      split at hs
      · rename_i ha
        simp only [Option.some.injEq, Prod.mk.injEq] at hs
        obtain ⟨rfl, rfl⟩ := hs
        exact ⟨[], [], rfl, rfl, hk, ha⟩
      · simp at hs
    · simp at hs
  | cons c rest ih =>
    have later : r.search (c :: behind) rest = some (before, h) →
        ∃ u v, c :: rest = u ++ v ∧ before = u.reverse ++ behind ∧ r.pattern.first? v = some h ∧
          r.admits before v = true := by
      intro hs
      obtain ⟨u, v, rfl, hb, hf, ha⟩ := ih hs
      exact ⟨c :: u, v, rfl, by simp [hb], hf, ha⟩
    simp only [search] at hs
    split at hs
    · rename_i k hk
      split at hs
      · rename_i ha
        simp only [Option.some.injEq, Prod.mk.injEq] at hs
        obtain ⟨rfl, rfl⟩ := hs
        exact ⟨[], c :: rest, rfl, rfl, hk, ha⟩
      · exact later hs
    · exact later hs

/-- The function that a match names, if the rule has several. -/
def selected (r : Rule) (h : Hit) : Except OperandFault (Option String) :=
  match r.selector with
  | some s => (s.read h.parts).map some
  | none => .ok none

/-- A hit is read as an occurrence when its selector and its operands are. -/
theorem occurrence_eq (r : Rule) (id : Nat) (behind : Text) (h : Hit) :
    r.occurrence id behind h = match r.selected h with
      | .error fault => .error fault
      | .ok selector =>
        (r.slots.mapM (Slot.operand r.name h.parts)).map fun operands =>
          ⟨id, Text.byteSize behind, Text.byteSize behind + Text.byteSize h.taken, h.taken, selector, operands⟩ := by
  unfold occurrence selected
  cases r.selector with
  | none =>
    simp only [bind, Except.bind, pure, Except.pure]
    cases r.slots.mapM (Slot.operand r.name h.parts) <;> rfl
  | some s =>
    simp only [bind, Except.bind, pure, Except.pure]
    cases s.read h.parts with
    | error fault => rfl
    | ok choice => cases r.slots.mapM (Slot.operand r.name h.parts) <;> rfl

/-- An occurrence has its place, its text and its operands from the hit. -/
theorem occurrence_eq_ok {r : Rule} {id : Nat} {behind : Text} {h : Hit} {o : Occurrence}
    (ho : r.occurrence id behind h = .ok o) :
    o.rule = id ∧ o.start = Text.byteSize behind ∧ o.stop = Text.byteSize behind + Text.byteSize h.taken ∧
      o.text = h.taken ∧ r.slots.mapM (Slot.operand r.name h.parts) = .ok o.operands := by
  rw [occurrence_eq] at ho
  cases hsel : r.selected h with
  | error fault => simp [hsel] at ho
  | ok selector =>
    cases hops : r.slots.mapM (Slot.operand r.name h.parts) with
    | error fault => simp [hsel, hops, Except.map] at ho
    | ok operands =>
      simp only [hsel, hops, Except.map, Except.ok.injEq] at ho
      subst ho
      exact ⟨rfl, rfl, rfl, rfl, rfl⟩

/-- What is located is read from the hit of the search. -/
theorem locate_eq_ok {r : Rule} {id : Nat} {t : Text} {l : Located} (hl : r.locate id t = .ok (some l)) :
    ∃ behind h, r.search [] t = some (behind, h) ∧ r.occurrence id behind h = .ok l.occurrence ∧
      l.before = behind.reverse ∧ l.after = h.rest := by
  simp only [locate] at hl
  split at hl
  · simp at hl
  · rename_i behind h hs
    cases ho : r.occurrence id behind h with
    | error fault => simp [ho, Except.map] at hl
    | ok o =>
      simp only [ho, Except.map, Except.ok.injEq, Option.some.injEq] at hl
      subst hl
      exact ⟨behind, h, hs, ho, rfl, rfl⟩

/-- The parts of a text that an occurrence divides it into. -/
theorem locate_parts {r : Rule} (hr : r.pattern.IsAligned) {id : Nat} {t : Text} {l : Located}
    (hl : r.locate id t = .ok (some l)) : t = l.before ++ l.occurrence.text ++ l.after := by
  obtain ⟨behind, h, hs, ho, hb, ha⟩ := locate_eq_ok hl
  obtain ⟨u, v, rfl, rfl, hf, -⟩ := search_eq_some hs
  obtain ⟨hv, -, -⟩ := hr.hit (List.mem_of_mem_head? hf)
  rw [hb, ha, (occurrence_eq_ok ho).2.2.2.1, List.append_nil, List.reverse_reverse, List.append_assoc, ← hv]

/-- An occurrence is whole exactly when nothing stands before it and nothing after it. -/
theorem isWhole_iff {r : Rule} (hr : r.pattern.IsAligned) {id : Nat} {t : Text} {l : Located}
    (hl : r.locate id t = .ok (some l)) : l.occurrence.isWhole t = true ↔ l.before = [] ∧ l.after = [] := by
  have hparts := locate_parts hr hl
  obtain ⟨behind, h, -, ho, hb, -⟩ := locate_eq_ok hl
  obtain ⟨-, hstart, hstop, htext, -⟩ := occurrence_eq_ok ho
  have hbytes : Text.byteSize l.before = Text.byteSize behind := by
    rw [hb, Text.byteSize_reverse]
  simp only [Occurrence.isWhole, Bool.and_eq_true, beq_iff_eq, hstart, hstop]
  constructor
  · rintro ⟨h0, hsize⟩
    have hbefore : l.before = [] := Text.eq_nil_of_byteSize (hbytes.trans h0)
    refine ⟨hbefore, Text.eq_nil_of_byteSize ?_⟩
    rw [hparts, hbefore, htext, List.nil_append, Text.byteSize_append] at hsize
    omega
  · rintro ⟨hbefore, hafter⟩
    rw [hbefore, Text.byteSize_nil] at hbytes
    refine ⟨hbytes.symm, ?_⟩
    rw [hparts, hbefore, hafter, htext]
    simp [← hbytes]

end Rule

/-- The index in a slot is read from a part of the match that is one token. -/
theorem Slot.only?_of_operand {rule : String} {parts : List (String × Text)} {slot : Slot} {i : Nat}
    (h : slot.operand rule parts = .ok (some (.index i))) :
    ∃ written, (slot.name, written) ∈ parts ∧ Token.only? written = some i := by
  unfold Slot.operand at h
  split at h
  · rename_i written hw
    obtain ⟨l₁, l₂, hparts, -⟩ := List.lookup_eq_some_iff.1 hw
    refine ⟨written, by rw [hparts]; simp, ?_⟩
    simp only [Slot.read] at h
    split at h
    · simp [Except.map] at h
    · split at h
      · rename_i j hj
        simp only [Except.map, Except.ok.injEq, Option.some.injEq, Operand.index.injEq] at h
        subst h
        split at hj
        · exact hj
        · simp at hj
      · split at h <;> simp [Except.map] at h
  · split at h
    · simp at h
    · simp only [Except.ok.injEq, Option.map_eq_some_iff] at h
      obtain ⟨x, -, hx⟩ := h
      simp at hx

namespace RuleSet

/-- What resolves a text is a rule that finds it whole. -/
theorem resolveWith_eq_some {t : Text} {numbered : List (Nat × Rule)} {o : Occurrence}
    (h : resolveWith t numbered = .ok (some o)) : ∃ id r, (id, r) ∈ numbered ∧ r.findWhole id t = .ok (some o) := by
  induction numbered with
  | nil => simp [resolveWith] at h
  | cons entry rest ih =>
    obtain ⟨id, r⟩ := entry
    simp only [resolveWith] at h
    split at h
    · simp at h
    · rename_i o' ho
      simp only [Except.ok.injEq, Option.some.injEq] at h
      subst h
      exact ⟨id, r, by simp, ho⟩
    · obtain ⟨id', r', hmem, hr'⟩ := ih h
      exact ⟨id', r', List.mem_cons_of_mem _ hmem, hr'⟩

/-- A rule is numbered by its position. -/
theorem mem_numbered {s : RuleSet} {id : Nat} {r : Rule} : (id, r) ∈ s.numbered ↔ s.get? id = some r := by
  rw [get?, numbered, List.mem_map]
  constructor
  · rintro ⟨⟨r', n⟩, hmem, heq⟩
    cases heq
    exact List.mem_zipIdx_iff_getElem?.1 hmem
  · exact fun h => ⟨(r, id), List.mem_zipIdx_iff_getElem?.2 h, rfl⟩

/-- A numbered rule is one of the rules. -/
theorem mem_of_numbered {s : RuleSet} {id : Nat} {r : Rule} (h : (id, r) ∈ s.numbered) : r ∈ s.rules := by
  simp only [numbered, List.mem_map, Prod.mk.injEq] at h
  obtain ⟨⟨r', n⟩, hmem, -, rfl⟩ := h
  exact List.fst_mem_of_mem_zipIdx hmem

end RuleSet

/-- What a rule finds whole is its first hit. -/
theorem Rule.findWhole_eq_some {r : Rule} (hr : r.pattern.IsAligned) {id : Nat} {t : Text} {o : Occurrence}
    (h : r.findWhole id t = .ok (some o)) :
    ∃ hit, r.pattern.first? t = some hit ∧ hit.taken = t ∧ hit.rest = [] ∧ r.occurrence id [] hit = .ok o := by
  simp only [Rule.findWhole, Rule.find] at h
  cases hl : r.locate id t with
  | error fault => simp [hl, Except.map] at h
  | ok found =>
    cases found with
    | none => simp [hl, Except.map] at h
    | some l =>
      simp only [hl, Except.map, Option.map_some, Except.ok.injEq, Option.filter_eq_some_iff, Option.some.injEq] at h
      obtain ⟨rfl, hwhole⟩ := h
      obtain ⟨hbefore, hafter⟩ := (Rule.isWhole_iff hr hl).1 hwhole
      obtain ⟨behind, hit, hs, ho, hb, ha⟩ := Rule.locate_eq_ok hl
      obtain ⟨u, v, ht, hbehind, hf, -⟩ := Rule.search_eq_some hs
      have hnil : behind = [] := by
        rw [hbefore] at hb
        exact List.reverse_eq_nil_iff.1 hb.symm
      subst hnil
      have hu : u = [] := by
        have := (List.append_eq_nil_iff.1 hbehind.symm).1
        exact List.reverse_eq_nil_iff.1 this
      subst hu
      obtain ⟨hv, -, -⟩ := hr.hit (List.mem_of_mem_head? hf)
      rw [List.nil_append] at ht
      subst ht
      rw [hafter] at ha
      refine ⟨hit, hf, ?_, ha.symm, ho⟩
      rw [← ha, List.append_nil] at hv
      exact hv.symm

/-- The indices among the operands of the rule that describes a whole text are references of the text. -/
theorem RuleSet.index_mem_references {s : RuleSet} {t : Text} {o : Occurrence} (h : s.resolve t = .ok (some o))
    {i : Nat} (hi : some (Operand.index i) ∈ o.operands) : i ∈ Token.references t := by
  obtain ⟨id, r, hmem, hfind⟩ := resolveWith_eq_some h
  have hr := s.isAligned r (mem_of_numbered hmem)
  obtain ⟨hit, hf, htaken, -, ho⟩ := Rule.findWhole_eq_some hr hfind
  obtain ⟨-, -, -, -, hops⟩ := Rule.occurrence_eq_ok ho
  obtain ⟨slot, -, hslot⟩ := exists_of_mem_mapM hops hi
  obtain ⟨written, hw, honly⟩ := Slot.only?_of_operand hslot
  obtain ⟨digits, hpieces, hread⟩ := Token.pieces_of_only? honly
  obtain ⟨-, -, hparts⟩ := hr.hit (List.mem_of_mem_head? hf)
  have hin := hparts _ hw
  rw [hpieces, htaken] at hin
  exact Token.mem_references.2 ⟨digits, hin.subset (by simp), hread⟩

end FormulaDag
