import FormulaDag.Proofs.Contexts.Numbering
import FormulaDag.Proofs.Pool.Canonical
import FormulaDag.Proofs.Pool.Numbering

/-!
# Frozen pools

A canonical pool is frozen by numbering its cells. The lines of its texts are numbered along with them, so what is known about the pool
is known about the contexts: they refer to each other without a cycle, no two are the same, and their meaning is consistent.
-/

namespace FormulaDag

theorem Line.map_map_relabel (f g : Nat → Nat) (s : Line) :
    (s.map (Mark.relabel f)).map (Mark.relabel g) = s.map (Mark.relabel fun k => g (f k)) := by
  rw [List.map_map]
  refine List.map_congr_left fun m _ => ?_
  cases m <;> rfl

namespace Pool

/-- Numbered lines that refer to each other without a cycle and differ from each other; all are led to from the first one, apart from
the letters of variables; and that one means the given text. -/
structure Frozen (letters : List Char) (write : Char → Text) (goal : Text) (lines : List Line) : Prop where
  rooted : 0 < lines.length
  small : lines.length ≤ Index.bound
  within : ∀ (i : Nat) (s : Line), lines[i]? = some s → Line.Within lines.length s
  distinct : lines.Nodup
  plain : ∀ (i : Nat) (s : Line), lines[i]? = some s → IsPlain (Line.text s)
  ranked : ∃ rank : Nat → Nat, ∀ (i : Nat) (s : Line), lines[i]? = some s → ∀ k, .ref k ∈ s → rank k < rank i
  covered : ∀ S : Nat → Prop, S Index.root → (∀ (i : Nat) (s : Line), lines[i]? = some s → S i → ∀ k, .ref k ∈ s → S k) →
    ∀ (i : Nat) (s : Line), lines[i]? = some s → S i ∨ ∃ letter ∈ letters, Line.text s = letterText letter
  meant : ∃ meaning : Nat → Text, (∀ (i : Nat) (s : Line), lines[i]? = some s → meaning i = Line.expand write meaning s) ∧
    meaning Index.root = goal

section
variable {p : Pool} {i k x : Nat}

/-- The numbering lists the holders of a sound pool. -/
theorem mem_numbering (h : p.Sound) (hroot : Index.root < p.cells.length) : x ∈ p.numbering ↔ p.holds x = true :=
  mem_numbering_iff (h.holds_resolve hroot)

/-- The numbering is no longer than the pool. -/
theorem length_numbering_le (h : p.Sound) (hroot : Index.root < p.cells.length) : p.numbering.length ≤ p.cells.length := by
  rw [length_numbering (h.holds_resolve hroot)]
  exact p.length_holders_le

/-- The cell with the number of a cell is that cell. -/
theorem getElem?_label (h : p.Sound) (hroot : Index.root < p.cells.length) (hk : k < p.cells.length) :
    p.numbering[p.label k]? = some (p.resolve k) :=
  getElem?_numbering_label (h.holds_resolve hroot) (h.holds_resolve hk)

/-- The number of an index leads back to what it resolves to. -/
theorem getD_label (h : p.Sound) (hroot : Index.root < p.cells.length) (hk : k < p.cells.length) :
    p.numbering.getD (p.label k) 0 = p.resolve k := by
  rw [List.getD_eq_getElem?_getD, getElem?_label h hroot hk, Option.getD_some]

theorem getD_numbering (hi : p.numbering[i]? = some x) : p.numbering.getD i 0 = x := by
  rw [List.getD_eq_getElem?_getD, hi, Option.getD_some]

end

/-- The lines of a view with their indices numbered, in the order of the numbers of their cells. -/
def numberedLines (p : Pool) (view : Nat → Line) : List Line := p.numbering.map fun x => (view x).map (Mark.relabel p.label)

/-- The lines by number are those of the holders, with their references numbered. -/
theorem getElem?_numberedLines {p : Pool} {view : Nat → Line} {i : Nat} {s : Line} :
    (p.numberedLines view)[i]? = some s ↔ ∃ x, p.numbering[i]? = some x ∧ s = (view x).map (Mark.relabel p.label) := by
  rw [numberedLines, List.getElem?_map, Option.map_eq_some_iff]
  exact exists_congr fun x => and_congr_right fun _ => eq_comm

namespace Linked
variable {letters : List Char} {write : Char → Text} {p : Pool} {view : Nat → Line} {meaning : Nat → Text} {i k x : Nat} {s : Line}

/-- What the numbering lists holds a text. -/
theorem holds_of_getElem? (h : p.Linked letters write view meaning) (hi : p.numbering[i]? = some x) : p.holds x = true :=
  (mem_numbering h.sound h.rooted).1 (List.mem_of_getElem? hi)

/-- The lines of a tidied pool refer to cells with texts. -/
theorem resolve_eq_self (h : p.Linked letters write view meaning) (hreads : p.Reads view) (hbound : p.cells.length ≤ Index.bound)
    (htidied : Tidied p x) (hx : p.holds x = true) (hk : .ref k ∈ view x) : p.resolve k = k := by
  have hw := h.within x hx
  have hresolved := htidied hx
  rw [resolved_eq hw hbound (hreads x hx), hreads x hx] at hresolved
  have hline := (hw.map fun k hk => lt_of_holds (h.sound.holds_resolve (hw.refs k hk))).text_injective hw hresolved
  rw [← hline] at hk
  obtain ⟨j, hj, rfl⟩ := Line.ref_mem_map.1 hk
  exact resolve_of_holds (h.sound.holds_resolve (hw.refs j hj))

/-- The contexts of a pool are its lines by number. -/
theorem toContexts_eq (h : p.Linked letters write view meaning) (hreads : p.Reads view) (hbound : p.cells.length ≤ Index.bound) :
    p.toContexts = Contexts.ofTexts ((p.numberedLines view).map Line.text) := by
  rw [toContexts, numberedLines, List.map_map]
  congr 1
  refine List.map_congr_left fun x hx => ?_
  have hx := (mem_numbering h.sound h.rooted).1 hx
  rw [hreads x hx, (h.within x hx).mapIndices_eq hbound]
  rfl

/-- The lines by number refer to numbers that exist. -/
theorem within_numberedLines (h : p.Linked letters write view meaning) (hs : (p.numberedLines view)[i]? = some s) :
    s.Within (p.numberedLines view).length := by
  obtain ⟨x, hi, rfl⟩ := getElem?_numberedLines.1 hs
  have hx := h.holds_of_getElem? hi
  rw [numberedLines, List.length_map]
  exact (h.within x hx).map fun k hk => (List.getElem?_eq_some_iff.1 (getElem?_label h.sound h.rooted (h.refs_lt hx hk))).1

/-- Lines that differ still do when they are numbered, since there is a way back from the numbers. -/
theorem nodup_numberedLines (h : p.Linked letters write view meaning) (hreads : p.Reads view) (htidied : ∀ x, Tidied p x)
    (hbound : p.cells.length ≤ Index.bound) (hnonempty : ∀ x, p.holds x = true → p.text x ≠ []) : (p.numberedLines view).Nodup := by
  refine p.nodup_numbering.map_on fun x hx y hy heq => ?_
  rw [mem_numbering h.sound h.rooted] at hx hy
  have hself : ∀ z, p.holds z = true → ((view z).map (Mark.relabel p.label)).map (Mark.relabel fun k => p.numbering.getD k 0) =
      view z := by
    intro z hz
    rw [Line.map_map_relabel]
    refine Line.map_relabel_self fun k hk => ?_
    rw [getD_label h.sound h.rooted (h.refs_lt hz hk), h.resolve_eq_self hreads hbound (htidied z) hz hk]
  refine h.sound.eq_of_text_eq hx hy ?_ (hnonempty x hx)
  rw [hreads x hx, hreads y hy, ← hself x hx, heq, hself y hy]

/-- The lines by number refer down some rank. -/
theorem ranked_numberedLines (h : p.Linked letters write view meaning) :
    ∃ rank : Nat → Nat, ∀ (i : Nat) (s : Line), (p.numberedLines view)[i]? = some s → ∀ k, .ref k ∈ s → rank k < rank i := by
  obtain ⟨rank, hrank⟩ := h.ranked
  refine ⟨fun i => rank (p.numbering.getD i 0), fun i s hs k hk => ?_⟩
  obtain ⟨x, hi, rfl⟩ := getElem?_numberedLines.1 hs
  obtain ⟨j, hj, rfl⟩ := Line.ref_mem_map.1 hk
  have hx := h.holds_of_getElem? hi
  simp only [getD_label h.sound h.rooted (h.refs_lt hx hj), getD_numbering hi]
  exact hrank x hx j hj

/-- What is led to from the root is led to from the first line. -/
theorem covered_numberedLines (h : p.Linked letters write view meaning) (hletters : ∀ letter ∈ letters, '@' ∉ letterText letter)
    {S : Nat → Prop} (hS : S Index.root)
    (hclosed : ∀ (i : Nat) (s : Line), (p.numberedLines view)[i]? = some s → S i → ∀ k, .ref k ∈ s → S k)
    (hs : (p.numberedLines view)[i]? = some s) : S i ∨ ∃ letter ∈ letters, Line.text s = letterText letter := by
  obtain ⟨x, hi, rfl⟩ := getElem?_numberedLines.1 hs
  have hcovered := h.covered (fun y => S (p.numbering.idxOf y)) (by simpa [numbering, Index.root] using hS) ?_ x
    (h.holds_of_getElem? hi)
  · rw [idxOf_numbering hi] at hcovered
    refine hcovered.imp id ?_
    rintro ⟨letter, hletter, htext⟩
    refine ⟨letter, hletter, ?_⟩
    rw [Line.map_relabel_self, htext]
    intro k hk
    exact absurd (htext ▸ Line.at_mem_text hk) (hletters letter hletter)
  · intro y hy hSy k hk
    have hyi := List.getElem?_idxOf ((mem_numbering h.sound h.rooted).2 hy)
    exact hclosed _ _ (getElem?_numberedLines.2 ⟨y, hyi, rfl⟩) hSy (p.label k) (Line.ref_mem_map.2 ⟨k, hk, rfl⟩)

/-- The meaning of a numbered index is its line with the meanings of the references put in. -/
theorem meant_numberedLines (h : p.Linked letters write view meaning) (hs : (p.numberedLines view)[i]? = some s) :
    meaning (p.numbering.getD i 0) = Line.expand write (fun k => meaning (p.numbering.getD k 0)) s := by
  obtain ⟨x, hi, rfl⟩ := getElem?_numberedLines.1 hs
  have hx := h.holds_of_getElem? hi
  rw [getD_numbering hi, h.meant x hx, Line.expand_map]
  refine Line.expand_congr fun k hk => ?_
  rw [getD_label h.sound h.rooted (h.refs_lt hx hk), h.pointed k (h.refs_lt hx hk)]

end Linked

/-- A canonical pool is frozen into lines with the same meaning. -/
theorem Plain.frozen {letters : List Char} {write : Char → Text} {goal : Text} {p : Pool} (h : Plain letters write goal p)
    (htidied : ∀ x, Tidied p x) (hbound : p.cells.length ≤ Index.bound) (hletters : ∀ letter ∈ letters, '@' ∉ letterText letter) :
    ∃ lines : List Line, p.toContexts = Contexts.ofTexts (lines.map Line.text) ∧ Frozen letters write goal lines := by
  obtain ⟨⟨view, meaning, hlinked, hreads, hgoal⟩, hplain⟩ := h
  refine ⟨p.numberedLines view, hlinked.toContexts_eq hreads hbound, ?_⟩
  constructor
  case rooted => simp [numberedLines, numbering]
  case small =>
    rw [numberedLines, List.length_map]
    exact Nat.le_trans (length_numbering_le hlinked.sound hlinked.rooted) hbound
  case within => exact fun i s hs => hlinked.within_numberedLines hs
  case distinct => exact hlinked.nodup_numberedLines hreads htidied hbound fun x hx => (hplain x hx).1
  case plain =>
    intro i s hs
    obtain ⟨x, hi, rfl⟩ := getElem?_numberedLines.1 hs
    have hx := hplain x (hlinked.holds_of_getElem? hi)
    rw [hreads x (hlinked.holds_of_getElem? hi)] at hx
    exact hx.of_subset (by simpa using (isPlain_text_iff.1 hx).1) fun c => Line.char_mem_map.1
  case ranked => exact hlinked.ranked_numberedLines
  case covered => exact fun S hS hclosed i s hs => hlinked.covered_numberedLines hletters hS hclosed hs
  case meant =>
    refine ⟨fun i => meaning (p.numbering.getD i 0), fun i s hs => hlinked.meant_numberedLines hs, ?_⟩
    rw [← hgoal]
    exact hlinked.pointed Index.root hlinked.rooted

end Pool

end FormulaDag
