import FormulaDag.Index
import Mathlib.Data.List.Induction

/-!
# References in one list

The references of all nodes can stand in a single list, one row behind the other, next to the place where each row begins and its length.
Places and lengths are words of 32 bits. Rows that fit them are read back as they were laid out, however many follow.
-/

namespace FormulaDag

/-- Rows of references in one list, with the place where each begins and its length. -/
structure Layout where
  flat : List Nat
  ranges : List (UInt32 × UInt32)

namespace Layout

/-- Lays out a row behind the others. -/
def add (l : Layout) (row : List Nat) : Layout :=
  ⟨l.flat ++ row, l.ranges ++ [(.ofNat l.flat.length, .ofNat row.length)]⟩

/-- Lays out rows, one after the other. -/
def ofRows (rows : List (List Nat)) : Layout := rows.foldl add ⟨[], []⟩

/-- The row with a number. There is none where the range runs past the end of the list, or past the last word. -/
def row? (l : Layout) (i : Nat) : Option (List Nat) :=
  match l.ranges[i]? with
  | none => none
  | some (start, count) =>
    if start ≤ start + count ∧ (start + count).toNat ≤ l.flat.length then
      some (l.flat.extract start.toNat (start + count).toNat)
    else none

section
variable {l : Layout} {row other : List Nat} {rows : List (List Nat)} {i : Nat}

@[simp] theorem ofRows_concat : ofRows (rows ++ [row]) = (ofRows rows).add row := by
  rw [ofRows, List.foldl_append]
  rfl

/-- The flat list has the rows one behind the other. -/
@[simp] theorem flat_ofRows : (ofRows rows).flat = rows.flatten := by
  induction rows using List.reverseRecOn with
  | nil => rfl
  | append_singleton rows row ih => simp [add, ih]

@[simp] theorem length_ranges_ofRows : (ofRows rows).ranges.length = rows.length := by
  induction rows using List.reverseRecOn with
  | nil => rfl
  | append_singleton rows row ih => simp [add, ih]

/-- There is no row behind the last one. -/
theorem row?_of_length_le (h : l.ranges.length ≤ i) : l.row? i = none := by
  rw [row?, List.getElem?_eq_none h]

/-- A row that has been laid out is still there when another one follows. -/
theorem row?_add_of_row? (h : l.row? i = some row) : (l.add other).row? i = some row := by
  unfold row? at h ⊢
  cases hrange : l.ranges[i]? with
  | none => simp [hrange] at h
  | some range =>
    obtain ⟨start, count⟩ := range
    have hi : i < l.ranges.length := (List.getElem?_eq_some_iff.1 hrange).1
    simp only [hrange, Option.ite_none_right_eq_some, Option.some.injEq] at h
    obtain ⟨⟨hle, hfits⟩, rfl⟩ := h
    have hrange' : (l.add other).ranges[i]? = some (start, count) := by
      rw [add, List.getElem?_append_left hi, hrange]
    have hfits' : (start + count).toNat ≤ (l.add other).flat.length := by
      rw [add, List.length_append]
      omega
    simp only [hrange']
    rw [if_pos ⟨hle, hfits'⟩, add, List.extract_eq_take_drop, List.extract_eq_take_drop]
    congr 1
    rw [List.drop_append_of_le_length (by have := UInt32.le_iff_toNat_le.1 hle; omega), List.take_append_of_le_length]
    rw [List.length_drop]
    omega

/-- The row that is laid out last, as long as its end fits a word. -/
theorem row?_add_length (h : l.flat.length + row.length < Index.bound) : (l.add row).row? l.ranges.length = some row := by
  have hrange : (l.add row).ranges[l.ranges.length]? = some (.ofNat l.flat.length, .ofNat row.length) := by
    simp [add]
  have hstart : (UInt32.ofNat l.flat.length).toNat = l.flat.length :=
    UInt32.toNat_ofNat_of_lt' (Nat.lt_of_le_of_lt (Nat.le_add_right _ _) h)
  have hstop : (UInt32.ofNat l.flat.length + UInt32.ofNat row.length).toNat = l.flat.length + row.length := by
    rw [← UInt32.ofNat_add]
    exact UInt32.toNat_ofNat_of_lt' h
  have hle : UInt32.ofNat l.flat.length ≤ UInt32.ofNat l.flat.length + UInt32.ofNat row.length := by
    rw [UInt32.le_iff_toNat_le, hstart, hstop]
    omega
  unfold row?
  simp only [hrange]
  rw [if_pos ⟨hle, by simp [hstop, add]⟩, hstart, hstop]
  simp [add, List.extract_eq_take_drop]

/-- Rows are read back as they were laid out, if together they fit words. -/
theorem row?_ofRows (h : rows.flatten.length < Index.bound) : (ofRows rows).row? i = rows[i]? := by
  induction rows using List.reverseRecOn with
  | nil => rfl
  | append_singleton rows row ih =>
    rw [List.flatten_append, List.length_append, List.flatten_singleton] at h
    have hbefore : (ofRows rows).row? i = rows[i]? := ih (by omega)
    rw [ofRows_concat]
    rcases Nat.lt_trichotomy i rows.length with hi | rfl | hi
    · rw [List.getElem?_append_left hi, List.getElem?_eq_getElem hi] at *
      exact row?_add_of_row? hbefore
    · have hlast : ((ofRows rows).add row).row? (ofRows rows).ranges.length = some row :=
        row?_add_length (by rwa [flat_ofRows])
      rw [length_ranges_ofRows] at hlast
      simpa using hlast
    · rw [row?_of_length_le (by simp [add]; omega), List.getElem?_eq_none (by simp; omega)]

end

end Layout

end FormulaDag
