import FormulaDag.Index

/-!
# Contexts

A context is the text of a subexpression, in which index tokens stand for further subexpressions. A collection of contexts maps
indices to contexts; its entries are kept in ascending order of the index, one for each index.
-/

namespace FormulaDag

/-- Texts by index, in ascending order. -/
structure Contexts where
  entries : List (Nat × Text)
  ascending : entries.Pairwise fun a b => a.1 < b.1

namespace Contexts

/-- No contexts. -/
def empty : Contexts := ⟨[], .nil⟩

/-- Puts an entry into an ascending list, in the place of an entry with the same index if there is one. -/
def insertEntry (i : Nat) (t : Text) : List (Nat × Text) → List (Nat × Text)
  | [] => [(i, t)]
  | (j, u) :: rest =>
    if i < j then (i, t) :: (j, u) :: rest
    else if i = j then (i, t) :: rest
    else (j, u) :: insertEntry i t rest

/-- An inserted list has the new entry and entries of the list. -/
theorem mem_insertEntry {i : Nat} {t : Text} {l : List (Nat × Text)} {e : Nat × Text}
    (h : e ∈ insertEntry i t l) : e = (i, t) ∨ e ∈ l := by
  induction l with
  | nil => simpa [insertEntry] using h
  | cons e' rest ih =>
    simp only [insertEntry] at h
    split at h
    · simpa using h
    · split at h
      · rcases List.mem_cons.1 h with h | h
        · exact .inl h
        · exact .inr (List.mem_cons_of_mem _ h)
      · rcases List.mem_cons.1 h with h | h
        · exact .inr (h ▸ List.mem_cons_self)
        · exact (ih h).imp id (List.mem_cons_of_mem _)

/-- Inserting keeps the indices ascending. -/
theorem ascending_insertEntry (i : Nat) (t : Text) (l : List (Nat × Text))
    (h : l.Pairwise fun a b => a.1 < b.1) : (insertEntry i t l).Pairwise fun a b => a.1 < b.1 := by
  induction l with
  | nil => simp [insertEntry]
  | cons e rest ih =>
    obtain ⟨j, u⟩ := e
    rw [List.pairwise_cons] at h
    simp only [insertEntry]
    split
    · rename_i hij
      refine List.pairwise_cons.2 ⟨fun e he => ?_, List.pairwise_cons.2 h⟩
      rcases List.mem_cons.1 he with rfl | he
      · exact hij
      · exact Nat.lt_trans hij (h.1 e he)
    · split
      · rename_i hij
        exact List.pairwise_cons.2 ⟨fun e he => hij ▸ h.1 e he, h.2⟩
      · refine List.pairwise_cons.2 ⟨fun e he => ?_, ih h.2⟩
        rcases mem_insertEntry he with rfl | he
        · simp only
          omega
        · exact h.1 e he

/-- Sets the context of an index. -/
def insert (c : Contexts) (i : Nat) (t : Text) : Contexts :=
  ⟨insertEntry i t c.entries, ascending_insertEntry i t c.entries c.ascending⟩

/-- The contexts of a list of entries, later ones replacing earlier ones. -/
def ofList (l : List (Nat × Text)) : Contexts := l.foldl (fun c e => c.insert e.1 e.2) empty

/-- The indices that have a context. -/
def indices (c : Contexts) : List Nat := c.entries.map Prod.fst

/-- The contexts in the order of their indices. -/
def texts (c : Contexts) : List Text := c.entries.map Prod.snd

/-- The context of an index. -/
def get? (c : Contexts) (i : Nat) : Option Text := c.entries.lookup i

/-- The context of the whole expression. -/
def root? (c : Contexts) : Option Text := c.get? Index.root

/-- The number of contexts. -/
def size (c : Contexts) : Nat := c.entries.length

/-- The lowest index with the given context. -/
def find? (c : Contexts) (t : Text) : Option Nat := (c.entries.find? fun e => e.2 == t).map Prod.fst

/-- Whether the indices are the numbers from zero on. -/
def isDense (c : Contexts) : Bool := c.indices == List.range c.size

/-- The contexts of a list, numbered from zero on. -/
def ofTexts (l : List Text) : Contexts := ⟨l.zipIdx.map fun (t, i) => (i, t), by
  rw [List.pairwise_map]
  have : ∀ (l : List Text) (n : Nat), (l.zipIdx n).Pairwise fun a b => a.2 < b.2 := by
    intro l
    induction l with
    | nil => simp
    | cons t l ih =>
      intro n
      simp only [List.zipIdx_cons, List.pairwise_cons]
      refine ⟨fun e he => ?_, ih (n + 1)⟩
      have := List.le_snd_of_mem_zipIdx he
      omega
  exact this l 0⟩

/-- The index that replaces a given one when the indices are renumbered from zero on; an index without a context stays. -/
def compactIndex (c : Contexts) (i : Nat) : Nat := if i ∈ c.indices then c.indices.idxOf i else i

/-- Renumbers the indices from zero on, in the same order, inside the contexts as well. -/
def compact (c : Contexts) : Contexts :=
  if c.isDense then c else ofTexts (c.texts.map (Token.mapIndices c.compactIndex))

end Contexts

end FormulaDag
