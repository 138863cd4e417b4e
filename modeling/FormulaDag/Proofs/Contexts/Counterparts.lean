import FormulaDag.Proofs.Contexts.Renumbering
import FormulaDag.Proofs.Contexts.WellFormed
import FormulaDag.Proofs.Pool.Ripe

/-!
# Contexts of pools with the same trees

Two ripe pools in which the same trees occur are frozen into contexts that are the same up to their numbers: cells of the same tree
correspond to each other.
-/

namespace FormulaDag

open Contexts (Renumbered)
open Token (Renamed)

namespace Pool

/-- Cells of two pools that have the same tree, by their numbers. -/
def SameTree (p p' : Pool) (meaning meaning' : Nat → Tree) (i j : Nat) : Prop :=
  ∃ x y, p.numbering[i]? = some x ∧ p'.numbering[j]? = some y ∧ meaning x = meaning' y

/-- Every cell of one pool has one with the same tree in the other. -/
def Covered (p p' : Pool) (meaning meaning' : Nat → Tree) : Prop :=
  ∀ x, p.holds x = true → ∃ y, p'.holds y = true ∧ meaning x = meaning' y

/-- Indices with the same tree have it in both directions. -/
theorem sameTree_symm {p p' : Pool} {meaning meaning' : Nat → Tree} {i j : Nat} (h : SameTree p p' meaning meaning' i j) :
    SameTree p' p meaning' meaning j i := by
  obtain ⟨x, y, hx, hy, heq⟩ := h
  exact ⟨y, x, hy, hx, heq.symm⟩

namespace Ripe
variable {meaning meaning' : Nat → Tree} {p p' : Pool} {x y : Nat} {s s' : Line}

/-- What the numbering lists holds a text. -/
theorem holds_of_numbering (h : p.Ripe meaning) {i : Nat} (hi : p.numbering[i]? = some x) : p.holds x = true :=
  (mem_numbering h.sound h.rooted).1 (List.mem_of_getElem? hi)

/-- The numbers of cells can be written. -/
theorem label_lt (h : p.Ripe meaning) {k : Nat} (hk : k < p.cells.length) : p.label k < Index.bound := by
  have hlt := (List.getElem?_eq_some_iff.1 (getElem?_label h.sound h.rooted hk)).1
  exact hlt.trans_le ((length_numbering_le h.sound h.rooted).trans h.small)

/-- A numbered line is within the bound. -/
theorem within_map_label (h : p.Ripe meaning) (hs : p.Writes x s) : Line.Within Index.bound (s.map (Mark.relabel p.label)) :=
  hs.within.map fun k hk => h.label_lt (hs.within.refs k hk)

/-- References to cells of the same tree are given numbers that correspond. -/
theorem sameTree_label (h : p.Ripe meaning) (h' : p'.Ripe meaning') {k k' : Nat} (hk : k < p.cells.length) (hk' : k' < p'.cells.length)
    (heq : meaning k = meaning' k') : SameTree p p' meaning meaning' (p.label k) (p'.label k') :=
  ⟨p.resolve k, p'.resolve k', getElem?_label h.sound h.rooted hk, getElem?_label h'.sound h'.rooted hk', by
    rw [h.pointed k hk, h'.pointed k' hk', heq]⟩

/-- The context of a number is the numbered line of its holder. -/
theorem get?_toContexts (h : p.Ripe meaning) {i : Nat} {t : Text} : p.toContexts.get? i = some t ↔
    ∃ x s, p.numbering[i]? = some x ∧ p.Writes x s ∧ t = Line.text (s.map (Mark.relabel p.label)) := by
  rw [toContexts, Contexts.get?_ofTexts, List.getElem?_map, Option.map_eq_some_iff]
  constructor
  · rintro ⟨x, hi, rfl⟩
    obtain ⟨s, hs⟩ := h.written x (h.holds_of_numbering hi)
    refine ⟨x, s, hi, hs, ?_⟩
    rw [hs.text, hs.within.mapIndices_eq h.small]
    rfl
  · rintro ⟨x, s, hi, hs, rfl⟩
    refine ⟨x, hi, ?_⟩
    rw [hs.text, hs.within.mapIndices_eq h.small]
    rfl

/-- Lines for the same parts are frozen into texts that differ in indices only. -/
theorem renamed_text (h : p.Ripe meaning) (h' : p'.Ripe meaning') (hs : p.Writes x s) (hs' : p'.Writes y s')
    (heq : meaning x = meaning' y) :
    Renamed (SameTree p p' meaning meaning') (Line.text (s.map (Mark.relabel p.label))) (Line.text (s'.map (Mark.relabel p'.label))) := by
  rw [Token.renamed_iff, (h.within_map_label hs).pieces_eq, (h'.within_map_label hs').pieces_eq, List.forall₂_map_left_iff, List.forall₂_map_left_iff,
    List.forall₂_map_right_iff, List.forall₂_map_right_iff]
  refine Line.forall₂_of_parts (h.parts_eq h' hs hs' heq) (fun c => .plain c) fun k k' hmem hmem' heqk => ?_
  have hk := hs.within.refs k hmem
  have hk' := hs'.within.refs k' hmem'
  exact .token (Index.read?_ofNat (h.label_lt hk)) (Index.read?_ofNat (h'.label_lt hk')) (h.sameTree_label h' hk hk' heqk)

/-- An index with a counterpart has a renamed text there. -/
theorem forth (h : p.Ripe meaning) (h' : p'.Ripe meaning') (hcovered : Covered p p' meaning meaning') {i : Nat} {t : Text}
    (ht : p.toContexts.get? i = some t) :
    ∃ j t', SameTree p p' meaning meaning' i j ∧ p'.toContexts.get? j = some t' ∧ Renamed (SameTree p p' meaning meaning') t t' := by
  obtain ⟨x, s, hi, hs, rfl⟩ := h.get?_toContexts.1 ht
  obtain ⟨y, hy, heq⟩ := hcovered x hs.held
  obtain ⟨s', hs'⟩ := h'.written y hy
  have hj := List.getElem?_idxOf ((mem_numbering h'.sound h'.rooted).2 hy)
  exact ⟨_, _, ⟨x, y, hi, hj, heq⟩, h'.get?_toContexts.2 ⟨y, s', hj, hs', rfl⟩, h.renamed_text h' hs hs' heq⟩

/-- Only one index has the tree of another. -/
theorem unique (h : p.Ripe meaning) {i i' j : Nat} (hij : SameTree p p' meaning meaning' i j)
    (hij' : SameTree p p' meaning meaning' i' j) : i = i' := by
  obtain ⟨x, y, hi, hj, heq⟩ := hij
  obtain ⟨x', y', hi', hj', heq'⟩ := hij'
  obtain rfl := Option.some.inj (hj.symm.trans hj')
  have hsame := h.injective (h.holds_of_numbering hi) (h.holds_of_numbering hi') (heq.trans heq'.symm)
  rw [← idxOf_numbering hi, ← idxOf_numbering hi', hsame]

/-- Pools of the same trees are frozen into contexts that differ in their numbers only. -/
theorem renumbered (h : p.Ripe meaning) (h' : p'.Ripe meaning') (hroot : meaning Index.root = meaning' Index.root)
    (hcovered : Covered p p' meaning meaning') (hcovered' : Covered p' p meaning' meaning) :
    Renumbered (SameTree p p' meaning meaning') p.toContexts p'.toContexts where
  unique := ⟨fun _ _ _ hij hij' => h.unique hij hij', fun _ _ _ hij hij' => h'.unique (sameTree_symm hij) (sameTree_symm hij')⟩
  root := by
    have hlabels := h.sameTree_label h' h.rooted h'.rooted hroot
    have hlabel : ∀ q : Pool, q.label Index.root = Index.root := fun q => by simp [label, numbering, Index.root]
    rwa [hlabel, hlabel] at hlabels
  forth i t ht := h.forth h' hcovered ht
  back := by
    intro j t' ht'
    obtain ⟨i, t, hij, ht, hrenamed⟩ := h'.forth h hcovered' ht'
    refine ⟨i, t, sameTree_symm hij, ht, ?_⟩
    rw [Token.renamed_iff] at hrenamed ⊢
    exact hrenamed.flip.imp fun piece piece' hpiece => by
      cases hpiece with
      | plain c => exact .plain c
      | token hread hread' hij => exact .token hread' hread (sameTree_symm hij)

end Ripe

end Pool

end FormulaDag
