import FormulaDag.Proofs.Evaluation.Breaks
import FormulaDag.Proofs.Formula.Coverage

/-!
# The lines of an outline

An outline shows the root and every node that the root depends on in one full line, and every further reference to one of them in a
line that names the level of its full line. The walk is a recursion with a table of the nodes shown so far; what its lines say is
proved along this recursion, for any pending entries and any table. The branches in the lines are those that the evaluation before has
kept, so none is missing.
-/

namespace FormulaDag

namespace Outline

/-- A line of an outline: the full line of an entry, or one that refers to the level of an earlier line. -/
inductive Row where
  | full (e : Entry)
  | reference (e : Entry) (level : Nat)

namespace Row

/-- The entry that a line belongs to. -/
def entry : Row → Entry
  | full e => e
  | reference e _ => e

/-- The entry of a full line. -/
def full? : Row → Option Entry
  | full e => some e
  | reference _ _ => none

/-- The text of a line. -/
def text (d : Dag) (s : RuleSet) (m : Memo) (key : Key) : Row → String
  | full e => fullLine d s m key e
  | reference e level => referenceLine e level

end Row

/-- The entries that have full lines. -/
def fullEntries (rows : List Row) : List Entry := rows.filterMap Row.full?

@[simp] theorem fullEntries_nil : fullEntries [] = [] := rfl

@[simp] theorem fullEntries_full (e : Entry) (rows : List Row) : fullEntries (.full e :: rows) = e :: fullEntries rows := rfl

@[simp] theorem fullEntries_reference (e : Entry) (level : Nat) (rows : List Row) :
    fullEntries (.reference e level :: rows) = fullEntries rows := rfl

/-- An entry is shown in full when its row is there. -/
theorem mem_fullEntries {rows : List Row} {e : Entry} : e ∈ fullEntries rows ↔ .full e ∈ rows := by
  rw [fullEntries, List.mem_filterMap]
  constructor
  · rintro ⟨row, hrow, heq⟩
    cases row with
    | full e' => exact Option.some.inj heq ▸ hrow
    | reference e' level => cases heq
  · exact fun h => ⟨_, h, rfl⟩

/-! ## Characters of lines -/

/-- A character is not in a text. -/
def Lacks (c : Char) (s : String) : Prop := c ∉ s.toList

instance (c : Char) (s : String) : Decidable (Lacks c s) := inferInstanceAs (Decidable (c ∉ s.toList))

section
variable {c : Char} {s t : String}

/-- A character is absent from two strings in a row when it is from both. -/
theorem lacks_append : Lacks c (s ++ t) ↔ Lacks c s ∧ Lacks c t := by
  rw [Lacks, String.toList_append, List.mem_append, not_or]
  rfl

theorem Lacks.append (h : Lacks c s) (h' : Lacks c t) : Lacks c (s ++ t) := lacks_append.2 ⟨h, h'⟩

theorem lacks_ofList {t : Text} : Lacks c (String.ofList t) ↔ c ∉ t := by rw [Lacks, String.toList_ofList]

/-- A written number has digits only. -/
theorem lacks_repr (hc : c.isDigit = false) (n : Nat) : Lacks c (Nat.repr n) := by
  rw [Lacks, Nat.toList_repr]
  exact fun hmem => absurd (Index.isDigit_of_mem_ofNat hmem) (by simp [hc])

/-- A character that is absent from all strings and what stands between them is absent from the whole. -/
theorem lacks_intercalate (hs : Lacks c s) {l : List String} (hl : ∀ t ∈ l, Lacks c t) : Lacks c (s.intercalate l) := by
  induction l with
  | nil => simp [Lacks]
  | cons t l ih =>
    have ht := hl t List.mem_cons_self
    have hrest := ih fun u hu => hl u (List.mem_cons_of_mem _ hu)
    cases l with
    | nil => simpa using ht
    | cons u l =>
      rw [String.intercalate_cons_cons]
      exact (ht.append hs).append hrest

end

/-! ## What the lines of pending entries say -/

/-- The lines of pending entries when some nodes were shown before: each other node has at most one full line, each line belongs to a
pending entry or to a child of one with a full line, and a line without branches names the level of an earlier full line. -/
structure Shows (d : Dag) (shown : List (Nat × Nat)) (pending : List Entry) (rows : List Row) : Prop where
  once : ((fullEntries rows).map Entry.node).Nodup
  unseen : ∀ e ∈ fullEntries rows, shown.lookup e.node = none
  entries : (rows.map Row.entry).Perm (pending ++ (fullEntries rows).flatMap fun e => children e (d.dependencies e.node))
  level : ∀ before e level after, rows = before ++ .reference e level :: after →
    shown.lookup e.node = some level ∨ ∃ first ∈ fullEntries before, first.node = e.node ∧ first.level = level
  inherited : ∀ P : Entry → Prop, (∀ e ∈ pending, P e) → (∀ e, P e → ∀ child ∈ children e (d.dependencies e.node), P child) →
    ∀ row ∈ rows, P row.entry

section
variable {d : Dag} {shown : List (Nat × Nat)} {e : Entry} {pending : List Entry} {rows : List Row}

theorem Shows.nil : Shows d shown [] [] where
  once := .nil
  unseen := by simp
  entries := .refl _
  level := by simp
  inherited := by simp

/-- A line for a node that was shown. -/
theorem Shows.reference (h : Shows d shown pending rows) {level : Nat} (hseen : shown.lookup e.node = some level) :
    Shows d shown (e :: pending) (.reference e level :: rows) where
  once := h.once
  unseen := h.unseen
  entries := h.entries.cons e
  level := by
    intro before e' level' after heq
    rcases List.cons_eq_append_iff.1 heq with ⟨rfl, hfirst⟩ | ⟨before', rfl, hrest⟩
    · obtain ⟨hrow, -⟩ := List.cons.inj hfirst
      obtain ⟨rfl, rfl⟩ := Row.reference.inj hrow
      exact .inl hseen
    · exact h.level before' e' level' after hrest
  inherited := by
    intro P hpending hchildren row hrow
    rcases List.mem_cons.1 hrow with rfl | hrow
    · exact hpending e List.mem_cons_self
    · exact h.inherited P (fun e' he' => hpending e' (List.mem_cons_of_mem _ he')) hchildren row hrow

/-- A line for a node that was not shown, before those of its dependencies. -/
theorem Shows.full (h : Shows d ((e.node, e.level) :: shown) (children e (d.dependencies e.node) ++ pending) rows)
    (hnew : shown.lookup e.node = none) : Shows d shown (e :: pending) (.full e :: rows) where
  once := by
    refine List.nodup_cons.2 ⟨fun hmem => ?_, h.once⟩
    obtain ⟨e', he', heq⟩ := List.mem_map.1 hmem
    have hunseen := h.unseen e' he'
    rw [heq, List.lookup_cons_self] at hunseen
    cases hunseen
  unseen := by
    intro e' he'
    rcases List.mem_cons.1 he' with rfl | he'
    · exact hnew
    · have hunseen := h.unseen e' he'
      rw [List.lookup_cons] at hunseen
      split at hunseen
      · cases hunseen
      · exact hunseen
  entries := by
    have hperm := h.entries.cons e
    rw [List.append_assoc] at hperm
    exact hperm.trans ((List.perm_append_comm_assoc _ _ _).cons e)
  level := by
    intro before e' level' after heq
    rcases List.cons_eq_append_iff.1 heq with ⟨rfl, hfirst⟩ | ⟨before', rfl, hrest⟩
    · cases hfirst
    · rcases h.level before' e' level' after hrest with hlookup | ⟨first, hfirst, hnode, hlevel⟩
      · rw [List.lookup_cons] at hlookup
        split at hlookup
        · rename_i hsame
          exact .inr ⟨e, List.mem_cons_self, (beq_iff_eq.1 hsame).symm, Option.some.inj hlookup⟩
        · exact .inl hlookup
      · exact .inr ⟨first, List.mem_cons_of_mem _ hfirst, hnode, hlevel⟩
  inherited := by
    intro P hpending hchildren row hrow
    have he := hpending e List.mem_cons_self
    rcases List.mem_cons.1 hrow with rfl | hrow
    · exact he
    · refine h.inherited P (fun e' he' => ?_) hchildren row hrow
      rcases List.mem_append.1 he' with he' | he'
      · exact hchildren e he e' he'
      · exact hpending e' (List.mem_cons_of_mem _ he')

end

/-- The lines of pending entries are made of rows that show them. -/
theorem exists_rows (d : Dag) (s : RuleSet) (m : Memo) (key : Key) (shown : List (Nat × Nat)) (pending : List Entry) :
    ∃ rows, lines d s m key shown pending = rows.map (Row.text d s m key) ∧ Shows d shown pending rows := by
  induction shown, pending using lines.induct d with
  | case1 shown => exact ⟨[], by rw [lines, List.map_nil], .nil⟩
  | case2 shown e rest level hseen ih =>
    obtain ⟨rows, hrows, hshows⟩ := ih
    exact ⟨_, by rw [lines_of_shown hseen, hrows, List.map_cons, Row.text], hshows.reference hseen⟩
  | case3 shown e rest hnew hsize ih =>
    obtain ⟨rows, hrows, hshows⟩ := ih
    exact ⟨_, by rw [lines_of_new hnew, hrows, List.map_cons, Row.text], hshows.full hnew⟩
  | case4 shown e rest hnew hsize ih =>
    obtain ⟨rows, hrows, hshows⟩ := ih
    have hnone := Dag.dependencies_of_size_le (Nat.not_lt.1 hsize)
    refine ⟨.full e :: rows, ?_, .full ?_ hnew⟩
    · rw [lines_of_new hnew, hnone, children, List.nil_append, hrows, List.map_cons, Row.text]
    · rwa [hnone, children, List.nil_append]

/-! ## The lines below one entry -/

/-- The children of an entry are its dependencies, one level below. -/
theorem map_node_children (e : Entry) (l : List Nat) : (children e l).map (fun child => (child.node, child.level)) =
    l.map fun i => (i, e.level + 1) := by
  induction l using children.induct with
  | case1 => rfl
  | case2 i => rfl
  | case3 i rest hne ih =>
    rw [children, List.map_cons, List.map_cons, ih]
    exact hne

/-- A text that indents a line of a level: three characters for each level above it, all of them blanks or rules. -/
structure Indents (level : Nat) (indent : String) : Prop where
  positive : 1 ≤ level
  length : indent.length = 3 * (level - 1)
  ruled : indent.toList ⊆ " |-`".toList

/-- An indent is made of blanks and strokes. -/
theorem Indents.lacks {level : Nat} {indent : String} (h : Indents level indent) {c : Char} (hc : c ∉ " |-`".toList) : Lacks c indent :=
  fun hmem => hc (h.ruled hmem)

/-- An entry whose indentation fits its level. -/
structure Indented (e : Entry) : Prop where
  connector : e.connector = "" ∨ e.connector = lastConnector ∨ e.connector = innerConnector
  indents : Indents e.level (e.stem ++ e.connector)

/-- A child stands one level below its entry, with one of the connectors. -/
theorem mem_children {e child : Entry} {l : List Nat} (h : child ∈ children e l) :
    child.level = e.level + 1 ∧ child.stem = e.below ∧ (child.connector = lastConnector ∨ child.connector = innerConnector) := by
  induction l using children.induct with
  | case1 => cases h
  | case2 i =>
    obtain rfl := List.mem_singleton.1 h
    exact ⟨rfl, rfl, .inl rfl⟩
  | case3 i rest hne ih =>
    rw [children] at h
    · rcases List.mem_cons.1 h with rfl | h
      · exact ⟨rfl, rfl, .inr rfl⟩
      · exact ih h
    · exact hne

/-- The children of an entry are indented by three more characters. -/
theorem Indented.children {e child : Entry} (h : Indented e) {l : List Nat} (hchild : child ∈ Outline.children e l) : Indented child := by
  obtain ⟨hlevel, hstem, hconnector⟩ := mem_children hchild
  have hbar : (if e.connector = lastConnector then "   " else if e.connector = innerConnector then "|  " else "").length =
      e.connector.length ∧ (if e.connector = lastConnector then "   " else if e.connector = innerConnector then "|  "
        else "").toList ⊆ " |-`".toList := by
    rcases h.connector with heq | heq | heq <;> rw [heq] <;> decide
  have hthree : child.connector.length = 3 ∧ child.connector.toList ⊆ " |-`".toList := by
    rcases hconnector with heq | heq <;> rw [heq] <;> decide
  have hlength := h.indents.length
  have hpositive := h.indents.positive
  rw [String.length_append] at hlength
  refine ⟨.inr hconnector, by omega, ?_, fun c hc => ?_⟩
  · rw [String.length_append, hstem, Entry.below, String.length_append, hbar.1, hlength, hthree.1, hlevel]
    omega
  · rw [String.toList_append, List.mem_append, hstem, Entry.below, String.toList_append, List.mem_append] at hc
    rcases hc with (hc | hc) | hc
    · exact h.indents.ruled (by rw [String.toList_append]; exact List.mem_append_left _ hc)
    · exact hbar.2 hc
    · exact hthree.2 hc

/-- The entry that an outline starts with. -/
def start (target : Nat) : Entry := ⟨1, "", "", target⟩

/-- The first entry stands without an indent. -/
theorem indented_start (target : Nat) : Indented (start target) :=
  ⟨.inl rfl, Nat.le_refl _, rfl, fun _ hc => nomatch hc⟩

section
variable {d : Dag} {target : Nat} {rows : List Row} (h : Shows d [] [start target] rows)
include h

/-- All entries of shown rows are indented by their level. -/
theorem Shows.indented : ∀ row ∈ rows, Indented row.entry :=
  h.inherited Indented (by simpa using indented_start target) fun _ he _ hchild => he.children hchild

/-- The nodes with full lines are the target and those that it depends on. -/
theorem Shows.mem_span_iff {i : Nat} : i ∈ (fullEntries rows).map Entry.node ↔ i ∈ d.span target := by
  have hfull : ∀ e, e ∈ rows.map Row.entry → e.node ∈ (fullEntries rows).map Entry.node := by
    intro e he
    obtain ⟨row, hrow, rfl⟩ := List.mem_map.1 he
    cases row with
    | full e => exact List.mem_map_of_mem (mem_fullEntries.2 hrow)
    | reference e level =>
      obtain ⟨before, after, heq⟩ := List.append_of_mem hrow
      rcases h.level before e level after heq with hlookup | ⟨first, hfirst, hnode, -⟩
      · cases hlookup
      · refine List.mem_map.2 ⟨first, mem_fullEntries.2 ?_, hnode⟩
        rw [heq]
        exact List.mem_append_left _ (mem_fullEntries.1 hfirst)
  constructor
  · intro hi
    obtain ⟨e, he, rfl⟩ := List.mem_map.1 hi
    refine h.inherited (fun e => e.node ∈ d.span target) (by simp [start]) (fun e he child hchild => ?_) _ (mem_fullEntries.1 he)
    exact Dag.closed_span he (node_of_mem_children hchild)
  · intro hi
    refine Dag.mem_of_mem_span (P := (· ∈ (fullEntries rows).map Entry.node)) hi
      (hfull (start target) (h.entries.mem_iff.2 (by simp))) fun j hj k hk => ?_
    obtain ⟨e, he, rfl⟩ := List.mem_map.1 hj
    have hk' : (k, e.level + 1) ∈ (children e (d.dependencies e.node)).map fun child => (child.node, child.level) := by
      rw [map_node_children]
      exact List.mem_map_of_mem hk
    obtain ⟨child, hchild, heq⟩ := List.mem_map.1 hk'
    obtain ⟨rfl, -⟩ := Prod.mk.inj heq
    exact hfull child (h.entries.mem_iff.2 (List.mem_append_right _ (List.mem_flatMap.2 ⟨e, he, hchild⟩)))

/-- Apart from the first, the lines stand for the references of the nodes with full lines, one level below these. -/
theorem Shows.references : (rows.map fun row => (row.entry.node, row.entry.level)).Perm
    ((target, 1) :: (fullEntries rows).flatMap fun e => (d.dependencies e.node).map fun j => (j, e.level + 1)) := by
  have hperm := h.entries.map fun e => (e.node, e.level)
  rw [List.map_map, List.map_append, List.map_flatMap] at hperm
  simp only [map_node_children] at hperm
  exact hperm

/-- There is one line more than there are references among the shown nodes. -/
theorem Shows.length_eq : rows.length = 1 + ∑ i ∈ d.span target, (d.dependencies i).length := by
  have hnodes : ((fullEntries rows).map Entry.node).toFinset = d.span target := by
    ext i
    rw [List.mem_toFinset, h.mem_span_iff]
  have hlength := h.references.length_eq
  rw [List.length_map, List.length_cons, List.length_flatMap] at hlength
  simp only [List.length_map] at hlength
  rw [hlength, ← hnodes, List.sum_toFinset _ h.once, List.map_map, Nat.add_comm]
  rfl

end

/-! ## The lines of an evaluated formula -/

/-- A character of the plain form of a double. -/
def isNotation (c : Char) : Bool := c.isDigit || "-.infNa".toList.contains c

/-- A decimal is written with digits, a point and zeros. -/
theorem isNotation_of_mem_positional {d : Decimal} {c : Char} (h : c ∈ d.positional) : isNotation c = true := by
  have digit : ∀ {c}, c ∈ Text.ofNat d.coefficient → isNotation c = true := fun hc => by
    rw [isNotation, Index.isDigit_of_mem_ofNat hc, Bool.true_or]
  have zero : ∀ {c n}, c ∈ List.replicate n '0' → isNotation c = true := fun hc => by
    rw [(List.mem_replicate.1 hc).2]
    decide
  rw [Decimal.positional] at h
  split at h
  · exact (List.mem_append.1 h).elim digit zero
  · split at h
    · rcases List.mem_append.1 h with h | h
      · exact digit (List.mem_of_mem_take h)
      · rcases List.mem_cons.1 h with rfl | h
        · decide
        · exact digit (List.mem_of_mem_drop h)
    · rcases List.mem_cons.1 h with rfl | h
      · decide
      · rcases List.mem_cons.1 h with rfl | h
        · decide
        · exact (List.mem_append.1 h).elim zero digit

/-- A double is written with the characters of numbers. -/
theorem isNotation_of_mem_plain {x : Float} {c : Char} (h : c ∈ Decimal.plain x) : isNotation c = true := by
  have words : ["NaN".toList, "-inf".toList, "inf".toList].all (fun w => w.all isNotation) = true := by decide
  have word : ∀ w ∈ ["NaN".toList, "-inf".toList, "inf".toList], ∀ c ∈ w, isNotation c = true := fun w hw =>
    List.all_eq_true.1 (List.all_eq_true.1 words w hw)
  rw [Decimal.plain] at h
  split at h
  · rw [Decimal.signed] at h
    split at h
    · rcases List.mem_cons.1 h with rfl | h
      · decide
      · exact isNotation_of_mem_positional h
    · exact isNotation_of_mem_positional h
  · rw [Decimal.special] at h
    split at h
    · exact word _ (by simp) c h
    · split at h
      · exact word _ (by simp) c h
      · exact word _ (by simp) c h

/-- The branches of a line are made of the characters of numbers. -/
theorem lacks_value {c : Char} (hc : isNotation c = false) (hmarks : c ∉ "[, ]".toList) (values : Branches) :
    Lacks c (value (some values)) := by
  have hlist : Lacks c (", ".intercalate (values.map Decimal.shown)) := by
    refine lacks_intercalate (fun h => hmarks ?_) fun t ht => ?_
    · exact (show ", ".toList ⊆ "[, ]".toList by decide) h
    · obtain ⟨x, -, rfl⟩ := List.mem_map.1 ht
      rw [Decimal.shown, lacks_ofList]
      exact fun h => absurd (isNotation_of_mem_plain h) (by simp [hc])
  refine (Lacks.append (fun h => hmarks ?_) hlist).append fun h => hmarks ?_
  · exact (show "[".toList ⊆ "[, ]".toList by decide) h
  · exact (show "]".toList ⊆ "[, ]".toList by decide) h

/-- The label of a node breaks no line. -/
theorem lacks_label (s : RuleSet) (kind : Option NodeKind) : Lacks '\n' (label s kind) := by
  have standard : ∀ r ∈ Rule.standard, Lacks '\n' r.name := by decide +kernel
  have hrules : ∀ r ∈ s.rules, Lacks '\n' r.name := by
    intro r hr
    rcases List.mem_append.1 hr with hr | hr
    · obtain ⟨f, -, rfl⟩ := List.mem_map.1 hr
      rw [UserFunction.rule, lacks_ofList]
      exact fun h => absurd (List.all_eq_true.1 f.letters _ h) (by decide)
    · exact standard r hr
  unfold label
  split
  · decide
  · rename_i o
    cases hget : s.get? o.rule with
    | none => exact (by decide : Lacks '\n' "?")
    | some r => exact hrules r (List.mem_of_getElem? hget)
  · decide
  · decide

/-- The full line of a node with branches is one line, if its context is. -/
theorem lacks_fullLine {d : Dag} {m : Memo} {key : Key} {e : Entry} (he : Indented e) (s : RuleSet)
    (hcontext : '\n' ∉ d.context e.node) (hkept : m.contains e.node key = true) : Lacks '\n' (fullLine d s m key e) := by
  obtain ⟨values, hget⟩ := Memo.contains_iff.1 hkept
  have hlevel := ((he.indents.lacks (by decide)).append (by decide : Lacks '\n' "[L")).append (lacks_repr (by decide) e.level)
  have hnode := (by decide : Lacks '\n' "#").append (lacks_repr (by decide) e.node)
  have hname := ((hlevel.append (by decide : Lacks '\n' "] ")).append hnode).append (by decide : Lacks '\n' " ")
  have hlabel := (hname.append (lacks_label s ((d.node? e.node).map Node.kind))).append (by decide : Lacks '\n' " '")
  have hbefore := (hlabel.append (lacks_ofList.2 hcontext)).append (by decide : Lacks '\n' "' = ")
  rw [fullLine, hget]
  exact hbefore.append (lacks_value (by decide) (by decide) values)

/-- A reference line breaks no line. -/
theorem lacks_referenceLine {e : Entry} (he : Indented e) (level : Nat) : Lacks '\n' (referenceLine e level) := by
  have hlevel := ((he.indents.lacks (by decide)).append (by decide : Lacks '\n' "-> (Ref to L")).append (lacks_repr (by decide) level)
  have hnode := (by decide : Lacks '\n' "#").append (lacks_repr (by decide) e.node)
  exact (hlevel.append (by decide : Lacks '\n' ") ")).append hnode

/-- The characters of a line. It is indented by its level. A full line then names its level and its node in marks and goes on with the
kind of the node, its context and its branches, none of which is left open. Another line names the level it refers to and its node. -/
inductive Prints (d : Dag) (s : RuleSet) (m : Memo) (key : Key) : Row → String → Prop
  | full {e : Entry} {indent : String} (branches : Branches) (hindent : Indents e.level indent)
      (hkept : m.get? e.node key = some branches) (hclosed : ∀ x ∈ branches, '?' ∉ (Decimal.shown x).toList) :
      Prints d s m key (.full e) (indent ++ "[L" ++ Nat.repr e.level ++ "] #" ++ Nat.repr e.node ++ " " ++
        label s ((d.node? e.node).map Node.kind) ++ " '" ++ (d.context e.node).asString ++ "' = " ++
        "[" ++ ", ".intercalate (branches.map Decimal.shown) ++ "]")
  | reference {e : Entry} {indent : String} (level : Nat) (hindent : Indents e.level indent) :
      Prints d s m key (.reference e level) (indent ++ "-> (Ref to L" ++ Nat.repr level ++ ") #" ++ Nat.repr e.node)

section
variable {d : Dag} {s : RuleSet} {m : Memo} {key : Key}

/-- The line of a node with branches shows them. -/
theorem prints_fullLine {e : Entry} (he : Indented e) (hkept : m.contains e.node key = true) :
    Prints d s m key (.full e) (fullLine d s m key e) := by
  obtain ⟨branches, hget⟩ := Memo.contains_iff.1 hkept
  have hmark : "] #" = "] " ++ "#" := by decide
  have hprints := Prints.full (d := d) (s := s) branches he.indents hget fun x _ hmem =>
    absurd (isNotation_of_mem_plain (String.toList_ofList ▸ hmem)) (by decide)
  rw [hmark] at hprints
  rw [fullLine, hget, value, Index.name]
  simpa only [String.append_assoc] using hprints

/-- A reference line is printed as its row tells. -/
theorem prints_referenceLine {e : Entry} (he : Indented e) (level : Nat) :
    Prints d s m key (.reference e level) (referenceLine e level) := by
  have hmark : ") #" = ") " ++ "#" := by decide
  have hprints : Prints d s m key (.reference e level) _ := .reference level he.indents
  rw [hmark] at hprints
  rw [referenceLine, Index.name]
  simpa only [String.append_assoc] using hprints

end

/-- What the lines of an outline say about the nodes that a target depends on: each has one full line; the other lines stand for the
remaining references to it and name the level of its full line. -/
structure Tells (d : Dag) (target : Nat) (rows : List Row) : Prop where
  once : ((fullEntries rows).map Entry.node).Nodup
  full : ∀ i, i ∈ (fullEntries rows).map Entry.node ↔ i = target ∨ i ∈ d.reach target
  references : (rows.map fun row => (row.entry.node, row.entry.level)).Perm
    ((target, 1) :: (fullEntries rows).flatMap fun e => (d.dependencies e.node).map fun j => (j, e.level + 1))
  level : ∀ before e level after, rows = before ++ .reference e level :: after →
    ∃ first ∈ fullEntries before, first.node = e.node ∧ first.level = level
  length : rows.length = 1 + ∑ i ∈ insert target (d.reach target).toFinset, (d.dependencies i).length

/-- The lines of a target tell its whole span. -/
theorem Shows.tells {d : Dag} {target : Nat} {rows : List Row} (h : Shows d [] [start target] rows) : Tells d target rows where
  once := h.once
  full := fun i => by rw [h.mem_span_iff, Dag.mem_span_iff, Dag.mem_reach_iff]
  references := h.references
  level := fun before e level after heq => (h.level before e level after heq).resolve_left (by simp)
  length := h.length_eq

/-- Where the whole span of a target has results, its lines print the rows. -/
theorem Shows.prints {d : Dag} {s : RuleSet} {m : Memo} {key : Key} {target : Nat} {rows : List Row}
    (h : Shows d [] [start target] rows) (hkept : ∀ i ∈ d.span target, m.contains i key = true) :
    List.Forall₂ (Prints d s m key) rows (rows.map (Row.text d s m key)) := by
  refine List.forall₂_map_right_iff.2 (List.forall₂_same.2 fun row hrow => ?_)
  have hindented := h.indented row hrow
  cases row with
  | full e => exact prints_fullLine hindented (hkept _ (h.mem_span_iff.1 (List.mem_map_of_mem (mem_fullEntries.2 hrow))))
  | reference e level => exact prints_referenceLine hindented level

end Outline

namespace Formula

/-- A formula whose nodes come from their contexts, and whose nodes with results have no line break in their contexts. -/
structure Unbroken (f : Formula) : Prop where
  nodes : ∀ n ∈ f.dag.nodes, ∃ t, Dag.nodeOf f.rules f.letters t = .ok n
  letters : '\n' ∉ f.letters
  contexts : ∀ i key, f.memo.contains i key = true → '\n' ∉ f.dag.context i

/-- The texts of a reached formula break no line. -/
theorem Reached.unbroken {f : Formula} (hf : Reached f) : f.Unbroken := by
  refine hf.invariant (P := Unbroken) (fun h => ?_) (fun {f values} _ hf => ?_) fun _ hf => ⟨hf.nodes, hf.letters, hf.contexts⟩
  · have hempty := h.fresh.1
    refine h.of_parts (P := fun f => f.memo = Memo.empty f.dag.size → Unbroken f) (fun hletters _ hparts hempty => ?_)
      (fun hf _ hempty => ⟨(hf hempty).nodes, (hf hempty).letters, (hf hempty).contexts⟩) hempty
    obtain ⟨order, dag, -, hb, rfl⟩ := ofParts_eq_ok hparts
    refine ⟨fun n hn => ?_, fun hmem => ?_, fun i key hkept => by cases hkept⟩
    · obtain ⟨nodes, hnodes, rfl⟩ := map_eq_ok.1 hb
      obtain ⟨t, -, ht⟩ := exists_of_mem_mapM hnodes hn
      exact ⟨t, ht⟩
    · exact absurd ((Source.declare_facts hletters).2 _ hmem) (by decide)
  · refine ⟨hf.nodes, hf.letters, ?_⟩
    refine Evaluation.evaluate_invariant (P := fun m => ∀ i key, m.contains i key = true → '\n' ∉ f.dag.context i)
      (Q := fun _ m => ∀ i key, m.contains i key = true → '\n' ∉ f.dag.context i) hf.contexts (fun _ _ => hf.contexts) ?_ fun _ _ h => h
    intro i l m n result hm hn hresult j key hkept
    by_cases hi : i < m.slots
    · rcases (Memo.contains_insert hi j key).1 hkept with ⟨rfl, -⟩ | hkept
      · obtain ⟨t, ht⟩ := hf.nodes n (List.mem_of_getElem? hn)
        have hcontext : f.dag.context j = n.context := by
          rw [Dag.context, show f.dag.node? j = some n from hn]
          rfl
        rw [hcontext]
        exact Evaluation.newline_not_mem_of_nodeBranches hf.letters ht hresult
      · exact hm j key hkept
    · rw [Memo.insert, if_neg hi] at hkept
      exact hm j key hkept

/-- An outline is a heading of two lines and a list of lines. The lines print rows that tell the nodes of the formula, each once, with the
branches they have for the arguments, and no line holds a line break. This holds of every formula, whatever was done with it, and for all
arguments that it has an outline for. -/
theorem outline_tells {f g : Formula} (hf : Reached f) {arguments : List (Text × Argument)} {text : String}
    (h : f.outline arguments = (.ok text, g)) : ∃ (values : List Float) (heading lines : List String) (rows : List Outline.Row),
      Argument.bind arguments f.letters = .ok values ∧
      heading = ["TRACE for '" ++ (f.dag.context Index.root).asString ++ "':", String.ofList (List.replicate 50 '-')] ∧
      text = String.join ((heading ++ lines).map (· ++ "\n")) ∧
      (∀ line ∈ heading ++ lines, '\n' ∉ line.toList) ∧
      List.Forall₂ (Outline.Prints f.dag f.rules g.memo (Key.ofValues values)) rows lines ∧
      Outline.Tells f.dag Index.root rows := by
  rw [Formula.outline] at h
  split at h
  · cases h
  · rename_i a result g' hroot
    obtain ⟨htext, rfl⟩ := Prod.mk.inj h
    obtain ⟨values, hvalues, rfl, hsame, hget, -⟩ := root_eq_ok hroot
    have hreached : Reached g' := by
      have hop := hf.operation (.outline arguments)
      rwa [Operation.run, outline_snd, hroot] at hop
    have hdag : g'.dag = f.dag := by rw [hsame]
    have hrules : g'.rules = f.rules := by rw [hsame]
    have hkept : ∀ i ∈ f.dag.span Index.root, g'.memo.contains i (Key.ofValues values) = true := fun i hi =>
      hreached.complete.contains_of_mem_span (Memo.contains_iff.2 ⟨_, hget⟩) (hdag ▸ hi)
    have hcontext : ∀ i ∈ f.dag.span Index.root, '\n' ∉ f.dag.context i := fun i hi =>
      hdag ▸ hreached.unbroken.contexts i _ (hkept i hi)
    obtain ⟨rows, hrows, hshows⟩ := Outline.exists_rows f.dag f.rules g'.memo (Key.ofValues values) [] [Outline.start Index.root]
    obtain ⟨n, hn⟩ : ∃ n, f.dag.node? Index.root = some n :=
      ⟨_, List.getElem?_eq_getElem (hdag ▸ hreached.complete.inside Index.root _ (Memo.contains_iff.2 ⟨_, hget⟩))⟩
    have hroot' : f.dag.context Index.root = n.context := by rw [Dag.context, hn]; rfl
    refine ⟨values, _, _, rows, hvalues, rfl, ?_, ?_, hshows.prints hkept, hshows.tells⟩
    · rw [← Except.ok.inj htext, hdag, hrules, Outline.render, hn, hroot']
      simp only
      rw [show [⟨1, "", "", Index.root⟩] = [Outline.start Index.root] from rfl, Evaluation.Valuation.ofValues, hrows]
      rfl
    · rw [List.forall_mem_append]
      refine ⟨?_, fun line hline => ?_⟩
      · have hheading := (Outline.lacks_ofList.2 (hcontext _ Dag.self_mem_span))
        have hfirst : Outline.Lacks '\n' ("TRACE for '" ++ (f.dag.context Index.root).asString ++ "':") :=
          (Outline.Lacks.append (by decide) hheading).append (by decide)
        have hsecond : Outline.Lacks '\n' (String.ofList (List.replicate 50 '-')) := by decide
        exact List.forall_mem_cons.2 ⟨hfirst, List.forall_mem_singleton.2 hsecond⟩
      · obtain ⟨row, hrow, rfl⟩ := List.mem_map.1 hline
        have hindented := hshows.indented row hrow
        cases row with
        | full e =>
          have hspan := hshows.mem_span_iff.1 (List.mem_map_of_mem (Outline.mem_fullEntries.2 hrow))
          exact Outline.lacks_fullLine hindented f.rules (hcontext _ hspan) (hkept _ hspan)
        | reference e level => exact Outline.lacks_referenceLine hindented level

/-- Arguments that have an answer have an outline. -/
theorem exists_outline_of_call {f : Formula} {arguments : List (Text × Argument)} {places : Nat} {values : Branches}
    (h : (f.call arguments places).1 = .ok values) : ∃ text g, f.outline arguments = (.ok text, g) := by
  rw [Formula.call] at h
  split at h
  · cases h
  · rename_i a result g hroot
    exact ⟨_, g, by rw [Formula.outline, hroot]⟩

/-- The outline of a variable times its double: four lines for three nodes. -/
theorem outline_tells_shared : ∃ (f g : Formula) (text : String) (values : List Float) (heading lines : List String)
    (rows : List Outline.Row),
      Reached f ∧ f.outline [("x".toList, .number 1.5)] = (.ok text, g) ∧
      Argument.bind [("x".toList, .number 1.5)] f.letters = .ok values ∧
      heading = ["TRACE for '" ++ (f.dag.context Index.root).asString ++ "':", String.ofList (List.replicate 50 '-')] ∧
      text = String.join ((heading ++ lines).map (· ++ "\n")) ∧
      (∀ line ∈ heading ++ lines, '\n' ∉ line.toList) ∧
      List.Forall₂ (Outline.Prints f.dag f.rules g.memo (Key.ofValues values)) rows lines ∧
      Outline.Tells f.dag Index.root rows ∧ lines.length = 4 := by
  have hf : Reached shared := .compiled (.contexts ofContexts_shared)
  obtain ⟨text, g, hg⟩ := exists_outline_of_call (call_shared 5)
  obtain ⟨values, heading, lines, rows, hvalues, hheading, htext, hbreaks, hprints, htells⟩ := outline_tells hf hg
  refine ⟨shared, g, text, values, heading, lines, rows, hf, hg, hvalues, hheading, htext, hbreaks, hprints, htells, ?_⟩
  rw [← hprints.length_eq, htells.length, show shared.dag.reach Index.root = [1, 2] from reach_shared]
  decide

end Formula

end FormulaDag
