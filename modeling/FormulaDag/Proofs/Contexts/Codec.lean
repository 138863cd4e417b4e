import FormulaDag.Contexts.Json
import FormulaDag.Proofs.Contexts.Renumbering
import FormulaDag.Proofs.Json.Writing

/-!
# Contexts through their written form

Contexts that are written as JSON and read back are the same. They are written in ascending order of the indices and read in ascending
order of their decimal names, which is another one, but every index has one name and an index is put where it belongs.
-/

namespace FormulaDag.Contexts

/-- Members that are written from entries are added entry by entry. -/
theorem addMembers_entries {l : List (Nat × Text)} (h : ∀ e ∈ l, e.1 < Index.bound) (c : Contexts) :
    addMembers c (l.map fun e => (Text.ofNat e.1, .string e.2)) = .ok (l.foldl (fun c e => c.insert e.1 e.2) c) := by
  induction l generalizing c with
  | nil => rfl
  | cons e rest ih =>
    rw [List.map_cons, addMembers, Index.read?_ofNat (h e List.mem_cons_self), List.foldl_cons]
    exact ih (fun e he => h e (List.mem_cons_of_mem _ he)) _

/-- The entries of contexts in any order give the same contexts. -/
theorem ofList_perm {c : Contexts} {l : List (Nat × Text)} (h : l.Perm c.entries) : ofList l = c := by
  have hnodup : (l.map Prod.fst).Nodup := (h.map Prod.fst).nodup_iff.2 c.nodup_indices
  exact ext_mem fun e => (mem_entries_ofList hnodup).trans h.mem_iff

/-- The members that contexts are written as, in ascending order of their names, are those of the entries in some order. -/
theorem exists_perm_members (c : Contexts) :
    ∃ l : List (Nat × Text), l.Perm c.entries ∧
      Json.members (c.entries.map fun e => (Text.ofNat e.1, Json.string e.2)) = l.map fun e => (Text.ofNat e.1, Json.string e.2) := by
  have hnames : ((c.entries.map fun e => (Text.ofNat e.1, Json.string e.2)).map Prod.fst).Nodup := by
    have hname : (c.entries.map fun e => (Text.ofNat e.1, Json.string e.2)).map Prod.fst = c.indices.map Text.ofNat := by
      simp [indices]
    rw [hname]
    exact c.nodup_indices.map fun i j hij => Index.ofNat_injective hij
  have hcomp := List.eq_map_comp_perm fun e : Nat × Text => (Text.ofNat e.1, Json.string e.2)
  obtain ⟨l, hl, hperm⟩ := (congrFun (congrFun hcomp _) _).mpr (Json.members_perm hnames)
  exact ⟨l, hperm, hl⟩

/-- The written form of contexts is read as an object that holds them. -/
theorem ofValue_written {c : Contexts} (h : ∀ i ∈ c.indices, i < Index.bound) :
    ofValue (.object (c.entries.map fun e => (Text.ofNat e.1, Json.string e.2))) = .ok c := by
  obtain ⟨l, hperm, hmembers⟩ := exists_perm_members c
  have hsmall : ∀ e ∈ l, e.1 < Index.bound := fun e he => h e.1 (List.mem_map_of_mem (hperm.mem_iff.1 he))
  have hlist : ofList l = c := ofList_perm hperm
  rw [ofValue, hmembers, addMembers_entries hsmall, ← hlist]
  rfl

/-- Reading contexts that were written comes down to validating them. -/
theorem ofJson_written {c : Contexts} (h : ∀ i ∈ c.indices, i < Index.bound) :
    ofJson c.toJson = c.validate >>= fun _ => .ok c := by
  have hread : Json.read? c.toJson = some (.object (c.entries.map fun e => (Text.ofNat e.1, Json.string e.2))) := by
    rw [toJson, Json.read?_writeObject, List.map_map]
    rfl
  rw [ofJson, hread]
  simp only [ofValue_written h]
  rfl

/-- Contexts are read back from their written form when they are accepted, and refused as they are when they are not. -/
theorem ofJson_toJson {c : Contexts} (h : ∀ i ∈ c.indices, i < Index.bound) :
    (c.validate = .ok () → ofJson c.toJson = .ok c) ∧ ∀ fault, c.validate = .error fault → ofJson c.toJson = .error fault := by
  have hread := ofJson_written h
  constructor
  · intro hvalid
    rw [hread, hvalid]
    rfl
  · intro fault hfault
    rw [hread, hfault]
    rfl

/-- Contexts of indices that ascend otherwise than their names, with every kind of character that is written with an escape sequence. -/
def escaped : Contexts :=
  ofList [(0, "@/2/@+@/10/@".toList), (2, "\"x\\/\t\x08\x0c\r\n\x01\x7f".toList), (10, "é😀\u2028".toList)]

/-- They are accepted and read back. -/
theorem ofJson_toJson_escaped :
    ofJson escaped.toJson = .ok escaped ∧
      ofJson (escaped.insert 2 "@/0/@".toList).toJson = .error (.cycle 2) := by
  have hsmall : ∀ i ∈ escaped.indices, i < Index.bound := by decide
  have hclosed : ∀ i ∈ (escaped.insert 2 "@/0/@".toList).indices, i < Index.bound := by decide
  exact ⟨(ofJson_toJson hsmall).1 (by cbv), (ofJson_toJson hclosed).2 _ (by cbv)⟩

end FormulaDag.Contexts
