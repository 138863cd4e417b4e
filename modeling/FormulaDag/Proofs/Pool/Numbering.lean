import FormulaDag.Pool.Canonical
import FormulaDag.Proofs.Pool.Reached

/-!
# The numbering of a pool

The indices with texts of their own are numbered from zero on: that to which the root leads comes first, and the others follow in ascending
order. An index that is a pointer gets the number of the one to which it leads.
-/

namespace FormulaDag.Pool

section
variable {p : Pool} {i k x y : Nat}

/-- The number that a cell gets. -/
def label (p : Pool) (k : Nat) : Nat := p.numbering.idxOf (p.resolve k)

/-- The numbering lists no index twice. -/
theorem nodup_numbering (p : Pool) : p.numbering.Nodup := by
  refine List.nodup_cons.2 ⟨by simp, ?_⟩
  exact (List.nodup_range.filter _).filter _

/-- An index stands in the numbering at its own number. -/
theorem idxOf_numbering (h : p.numbering[i]? = some x) : p.numbering.idxOf x = i := by
  obtain ⟨hi, rfl⟩ := List.getElem?_eq_some_iff.1 h
  exact p.nodup_numbering.idxOf_getElem i hi

/-- What the root resolves to has the number zero. -/
theorem label_resolve_root (hroot : p.holds (p.resolve Index.root) = true) : p.label (p.resolve Index.root) = 0 := by
  rw [label, resolve_of_holds hroot]
  exact List.idxOf_cons_self

/-- The numbering lists the holders. -/
theorem mem_numbering_iff (hroot : p.holds (p.resolve Index.root) = true) : x ∈ p.numbering ↔ p.holds x = true := by
  rw [numbering, List.mem_cons, List.mem_filter, mem_holders, bne_iff_ne]
  constructor
  · rintro (rfl | ⟨hx, -⟩)
    · exact hroot
    · exact hx
  · intro hx
    by_cases hxr : x = p.resolve Index.root
    · exact .inl hxr
    · exact .inr ⟨hx, hxr⟩

/-- There are as many numbers as holders. -/
theorem length_numbering (hroot : p.holds (p.resolve Index.root) = true) : p.numbering.length = p.holders.length :=
  ((List.perm_ext_iff_of_nodup p.nodup_numbering p.nodup_holders).2 fun x => by rw [mem_numbering_iff hroot, mem_holders]).length_eq

/-- The place of a number in the numbering is taken by the index to which its indices lead. -/
theorem getElem?_numbering_label (hroot : p.holds (p.resolve Index.root) = true) (hk : p.holds (p.resolve k) = true) :
    p.numbering[p.label k]? = some (p.resolve k) :=
  List.getElem?_idxOf ((mem_numbering_iff hroot).2 hk)

/-- The numbers of the indices with texts are their places in the numbering. -/
theorem getElem?_numbering_iff (hroot : p.holds (p.resolve Index.root) = true) :
    p.numbering[i]? = some x ↔ p.holds x = true ∧ p.label x = i := by
  constructor
  · intro hi
    have hx := (mem_numbering_iff hroot).1 (List.mem_of_getElem? hi)
    exact ⟨hx, by rw [label, resolve_of_holds hx, idxOf_numbering hi]⟩
  · rintro ⟨hx, rfl⟩
    have hself := resolve_of_holds hx
    rw [getElem?_numbering_label hroot (hself.symm ▸ hx), hself]

/-- The indices but for that of the root are numbered in their order. -/
theorem label_lt_label (hx : p.holds x = true) (hy : p.holds y = true) (hxr : x ≠ p.resolve Index.root)
    (hyr : y ≠ p.resolve Index.root) (hlt : x < y) : p.label x < p.label y := by
  have hmem : ∀ z, p.holds z = true → z ≠ p.resolve Index.root → z ∈ p.holders.filter (· != p.resolve Index.root) := by
    intro z hz hzr
    rw [List.mem_filter, mem_holders, bne_iff_ne]
    exact ⟨hz, hzr⟩
  have hascending : (p.holders.filter (· != p.resolve Index.root)).Pairwise (· < ·) := (List.pairwise_lt_range.filter _).filter _
  rw [label, label, resolve_of_holds hx, resolve_of_holds hy, numbering, List.idxOf_cons_ne _ (Ne.symm hxr),
    List.idxOf_cons_ne _ (Ne.symm hyr), Nat.succ_lt_succ_iff]
  have hxi := List.idxOf_lt_length_of_mem (hmem x hx hxr)
  have hyi := List.idxOf_lt_length_of_mem (hmem y hy hyr)
  rcases Nat.lt_trichotomy ((p.holders.filter (· != p.resolve Index.root)).idxOf x)
    ((p.holders.filter (· != p.resolve Index.root)).idxOf y) with h | h | h
  · exact h
  · rw [List.idxOf_inj (hmem x hx hxr)] at h
    exact absurd h (Nat.ne_of_lt hlt)
  · have hgt := List.pairwise_iff_getElem.1 hascending _ _ hyi hxi h
    rw [List.getElem_idxOf, List.getElem_idxOf] at hgt
    exact absurd hgt (Nat.lt_asymm hlt)

end

end FormulaDag.Pool
