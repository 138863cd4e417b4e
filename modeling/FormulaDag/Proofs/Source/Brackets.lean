import FormulaDag.Proofs.Source.Groups

/-!
# What brackets hold

In the tree of a source text every innermost pair of brackets holds a single tree. Brackets around others keep what stands between them,
so all brackets hold a single tree just when none opens directly inside another one.
-/

namespace FormulaDag

/-- A tree in which the parts of every node have a property. -/
inductive Tree.Every (P : Parts → Prop) : Tree → Prop
  | node {u : Parts} (hu : P u) (htrees : ∀ w, .inr w ∈ u → Every P w) : Every P (.node u)

/-- A property of every level of a tree is one of its parts and of every level of its subtrees. -/
theorem Tree.every_node {P : Parts → Prop} {u : Parts} : Every P (.node u) ↔ P u ∧ ∀ w, .inr w ∈ u → Every P w :=
  ⟨fun | .node hu htrees => ⟨hu, htrees⟩, fun h => .node h.1 h.2⟩

namespace Parts

/-- Parts that are trees in which every node has a property, apart from characters. -/
def Each (P : Parts → Prop) (u : Parts) : Prop := ∀ w, .inr w ∈ u → Tree.Every P w

/-- What follows each bracket that opens has a property. -/
def AtBrackets (Q : Parts → Prop) (u : Parts) : Prop := ∀ a b, u = a ++ .inl '[' :: b → Q b

/-- A tree and a bracket that closes stand in front. -/
def Filled (u : Parts) : Prop := ∃ w v, u = .inr w :: .inl ']' :: v

/-- If the next bracket is one that closes, a single tree stands before it. -/
def Settled (u : Parts) : Prop := ∀ v v', u = v ++ .inl ']' :: v' → .inl '[' ∉ v → .inl ']' ∉ v → ∃ w, v = [.inr w]

section
variable {P Q : Parts → Prop} {u v x : Parts} {m : Char ⊕ Tree} {w : Tree} {c : Char}

@[simp] theorem each_nil : Each P [] := fun _ h => nomatch h

@[simp] theorem each_cons_inl : Each P (.inl c :: u) ↔ Each P u := by simp [Each]

@[simp] theorem each_cons_inr : Each P (.inr w :: u) ↔ w.Every P ∧ Each P u := by simp [Each]

@[simp] theorem each_append : Each P (u ++ v) ↔ Each P u ∧ Each P v := by
  simp only [Each, List.mem_append, or_imp, forall_and]

@[simp] theorem each_reverse : Each P u.reverse ↔ Each P u := by simp [Each]

/-- What holds behind all brackets does so behind the first and behind those in the rest. -/
theorem atBrackets_cons : AtBrackets Q (m :: u) ↔ (m = .inl '[' → Q u) ∧ AtBrackets Q u := by
  constructor
  · exact fun h => ⟨fun hm => h [] u (by rw [hm, List.nil_append]), fun a b hu => h (m :: a) b (by rw [hu, List.cons_append])⟩
  · rintro ⟨hm, hu⟩ a b hab
    cases a with
    | nil =>
      obtain ⟨rfl, rfl⟩ := List.cons.inj hab
      exact hm rfl
    | cons m' a =>
      obtain ⟨rfl, rfl⟩ := List.cons.inj hab
      exact hu a b rfl

theorem atBrackets_of_not_mem (h : .inl '[' ∉ u) : AtBrackets Q u := fun a b hu => absurd (by simp [hu]) h

/-- Parts without brackets in front change nothing about what stands behind brackets. -/
theorem atBrackets_append (h : .inl '[' ∉ u) : AtBrackets Q (u ++ v) ↔ AtBrackets Q v := by
  induction u with
  | nil => rfl
  | cons m u ih =>
    simp only [List.mem_cons, not_or] at h
    rw [List.cons_append, atBrackets_cons, ih h.2, and_iff_right fun heq => absurd heq.symm h.1]

/-- Parts that fill a bracket are settled. -/
theorem Filled.settled (h : Filled u) : Settled u := by
  obtain ⟨w, v, rfl⟩ := h
  intro x y heq _ hclose
  cases x with
  | nil => cases heq
  | cons m x =>
    obtain ⟨rfl, htail⟩ := List.cons.inj heq
    cases x with
    | nil => exact ⟨w, rfl⟩
    | cons m x => exact absurd (by simp [(List.cons.inj htail).1]) hclose

/-- A property that parts without brackets have holds of the tree that stands for parts as it does of the node with these parts. -/
theorem every_stand (hP : ∀ u, .inl '[' ∉ u → P u) : (stand u).Every P ↔ Tree.Every P (.node u) := by
  unfold stand
  split
  · rename_i w
    rw [Tree.every_node]
    simp [hP [.inr w] (by simp)]
  · rfl

/-- Taking apart what brackets hold leaves the trees that there were, and others whose nodes hold no brackets. -/
theorem each_brackets (hP : ∀ u, .inl '[' ∉ u → P u) {inner : Option Parts} (hinner : .inl '[' ∉ inner.getD []) :
    Each P (brackets inner u) ↔ Each P (inner.getD []) ∧ Each P u := by
  induction u generalizing inner with
  | nil => simp [brackets]
  | cons m u ih =>
    cases inner with
    | none =>
      cases m with
      | inr w => simp [brackets, @ih none (by simp)]
      | inl c =>
        rw [brackets, each_cons_inl, ih (by split <;> simp)]
        split <;> simp
    | some inner =>
      rw [Option.getD_some] at hinner
      cases m with
      | inr w =>
        rw [brackets, ih (by simpa using hinner)]
        simp only [Option.getD_some, each_cons_inr]
        tauto
      | inl c =>
        rw [brackets]
        split
        · simp [@ih (some []) (by simp)]
        · split
          · simp [@ih none (by simp), every_stand hP, Tree.every_node, hP inner.reverse (by simpa using hinner)]
            simp [Each]
          · rename_i hc _
            rw [ih (by simpa using ⟨Ne.symm hc, hinner⟩)]
            simp

/-- Replacing brackets keeps what every level of the subtrees has, when it is trivial without brackets. -/
theorem each_brackets_none (hP : ∀ u, .inl '[' ∉ u → P u) : Each P (brackets none u) ↔ Each P u := by
  simpa using each_brackets hP (show .inl '[' ∉ (none : Option Parts).getD [] by simp)

/-- Up to a bracket that opens nothing has to be said. -/
theorem settled_append_opener (h : .inl ']' ∉ u) (v : Parts) : Settled (u ++ .inl '[' :: v) := by
  intro x y heq hopen hclose
  rcases List.append_eq_append_iff.1 heq with ⟨z, rfl, hz⟩ | ⟨z, rfl, hz⟩
  · cases z with
    | nil => cases hz
    | cons m z => exact absurd (by simp [← (List.cons.inj hz).1]) hopen
  · cases z with
    | nil => cases hz
    | cons m z => exact absurd (by simp [← (List.cons.inj hz).1]) h

/-- Innermost brackets hold a single tree once they have been taken apart. The second statement is the first one behind a bracket that has
opened. -/
theorem settled_brackets (u : Parts) : AtBrackets Settled (brackets none u) ∧
    ∀ inner : Parts, .inl '[' ∉ inner → .inl ']' ∉ inner → AtBrackets Settled (.inl '[' :: brackets (some inner) u) := by
  induction u with
  | nil =>
    refine ⟨atBrackets_of_not_mem (by simp [brackets]), fun inner hopen hclose => ?_⟩
    refine atBrackets_cons.2 ⟨fun _ v v' heq _ _ => absurd ?_ hclose, atBrackets_of_not_mem (by simpa [brackets] using hopen)⟩
    have hmem : .inl ']' ∈ brackets (some inner) [] := by simp [heq]
    simpa [brackets] using hmem
  | cons m u ih =>
    obtain ⟨ih, ihinner⟩ := ih
    cases m with
    | inr w =>
      refine ⟨atBrackets_cons.2 ⟨by simp, ih⟩, fun inner hopen hclose => ?_⟩
      rw [brackets]
      exact ihinner _ (by simpa using hopen) (by simpa using hclose)
    | inl c =>
      constructor
      · rw [brackets]
        split
        · rename_i hc
          exact hc ▸ ihinner [] (by simp) (by simp)
        · rename_i hc
          exact atBrackets_cons.2 ⟨fun heq => absurd (Sum.inl.inj heq) hc, ih⟩
      · intro inner hopen hclose
        rw [brackets]
        split
        · rename_i hc
          subst hc
          refine atBrackets_cons.2 ⟨fun _ => settled_append_opener (by simpa using hclose) _, ?_⟩
          rw [atBrackets_append (by simpa using hopen)]
          exact ihinner [] (by simp) (by simp)
        · split
          · rename_i hc
            subst hc
            refine atBrackets_cons.2 ⟨fun _ => Filled.settled ⟨_, _, rfl⟩, ?_⟩
            exact atBrackets_cons.2 ⟨by simp, atBrackets_cons.2 ⟨by simp, ih⟩⟩
          · rename_i hc hc'
            exact ihinner _ (by simpa using ⟨Ne.symm hc, hopen⟩) (by simpa using ⟨Ne.symm hc', hclose⟩)

/-- The node of parts in which groups have become trees has a property if all trees in the parts have, and if taking apart what brackets
hold brings it about. -/
theorem every_flat (hP : ∀ u, .inl '[' ∉ u → P u) (hbrackets : ∀ u, P (brackets none u)) (hu : Each P u) :
    Tree.Every P (.node (flat u)) := by
  have hnode : ∀ u, Each P u → Tree.Every P (.node (brackets none u)) := fun u hu =>
    .node (hbrackets u) ((each_brackets_none hP).2 hu)
  suffices hgroups : ∀ (u here : Parts) (around : List Parts), Each P here → (∀ l ∈ around, Each P l) → Each P u →
      Each P (groups here around u) from hnode _ (hgroups u [] [] (by simp) (by simp) hu)
  intro u
  induction u with
  | nil => exact fun here _ hhere _ _ => by simpa [groups] using hhere
  | cons m u ih =>
    intro here around hhere haround hmu
    cases m with
    | inr w =>
      simp only [each_cons_inr] at hmu
      rw [groups]
      exact ih _ _ (by simpa using ⟨hmu.1, hhere⟩) haround hmu.2
    | inl c =>
      simp only [each_cons_inl] at hmu
      by_cases hopener : c = '(' ∨ c = '{'
      · rw [groups_opener hopener]
        exact ih _ _ (by simp) (by simpa using ⟨hhere, haround⟩) hmu
      · by_cases hcloser : c = ')' ∨ c = '}'
        · cases around with
          | nil =>
            have hstray : groups here [] (.inl c :: u) = groups (.inl c :: here) [] u := by
              rcases hcloser with rfl | rfl <;> simp [groups]
            rw [hstray]
            exact ih _ _ (by simpa using hhere) haround hmu
          | cons outer around =>
            simp only [List.mem_cons, forall_eq_or_imp] at haround
            rw [groups_closer hcloser]
            exact ih _ _ (by simpa using ⟨(every_stand hP).2 (hnode _ (by simpa using hhere)), haround.1⟩) haround.2 hmu
        · have hother : ∀ d ∈ ['(', ')', '{', '}'], c ≠ d := by
            simp only [List.mem_cons, List.not_mem_nil, or_false, forall_eq_or_imp, forall_eq]
            tauto
          rw [groups_other hother]
          exact ih _ _ (by simpa using hhere) haround hmu

/-- Brackets without brackets inside hold a single tree once they have been taken apart, whatever follows. -/
theorem filled_brackets_bracket (hopen : .inl '[' ∉ x) (hclose : .inl ']' ∉ x) (v : Parts) :
    AtBrackets Filled (brackets none (.inl '[' :: (x ++ .inl ']' :: v))) ↔ AtBrackets Filled (brackets none v) := by
  have heq : brackets none (.inl '[' :: (x ++ .inl ']' :: v)) = .inl '[' :: .inr (stand x) :: .inl ']' :: brackets none v := by
    rw [brackets, if_pos rfl, brackets_append hopen hclose, brackets, if_neg (by decide), if_pos rfl, List.append_nil, List.reverse_reverse]
  rw [heq, atBrackets_cons, and_iff_right fun _ => ⟨_, _, rfl⟩, atBrackets_cons, and_iff_right (by simp), atBrackets_cons,
    and_iff_right (by simp)]

/-- A bracket behind which another one opens stays without a tree of its own. -/
theorem not_filled_brackets (hopen : .inl '[' ∉ x) (hclose : .inl ']' ∉ x) (v : Parts) :
    ¬AtBrackets Filled (brackets none (.inl '[' :: (x ++ .inl '[' :: v))) := by
  have heq : brackets none (.inl '[' :: (x ++ .inl '[' :: v)) = .inl '[' :: (x ++ .inl '[' :: brackets (some []) v) := by
    rw [brackets, if_pos rfl, brackets_append hopen hclose, brackets, if_pos rfl, List.append_nil, List.reverse_reverse]
  rw [heq, atBrackets_cons]
  rintro ⟨hfilled, -⟩
  obtain ⟨w, t, ht⟩ := hfilled rfl
  cases x with
  | nil => cases ht
  | cons m x =>
    obtain ⟨-, htail⟩ := List.cons.inj ht
    cases x with
    | nil => cases htail
    | cons m' x => exact hclose (by simp [(List.cons.inj htail).1])

/-- Parts whose brackets hold single trees once they have been taken apart, as do those in all their trees. Where a bracket is open
already, the parts hold no brackets. -/
structure Slotted (inside : Bool) (u : Parts) : Prop where
  here : if inside then .inl '[' ∉ u else AtBrackets Filled (brackets none u)
  trees : Each (AtBrackets Filled) u

/-- The brackets of flattened parts are filled exactly when their groups are slotted. -/
theorem every_flat_iff : Tree.Every (AtBrackets Filled) (.node (flat u)) ↔ Slotted false (groups [] [] u) := by
  have htrees := each_brackets_none (P := AtBrackets Filled) (u := groups [] [] u) fun _ => atBrackets_of_not_mem
  rw [Tree.every_node, flat]
  exact ⟨fun h => ⟨by simpa using h.1, htrees.1 h.2⟩, fun h => ⟨by simpa using h.here, htrees.2 h.trees⟩⟩

/-- No parts are slotted. -/
theorem slotted_nil (inside : Bool) : Slotted inside [] :=
  ⟨by cases inside <;> simp [brackets, AtBrackets], each_nil⟩

/-- A character other than a bracket does not matter to being slotted. -/
theorem slotted_cons_inl {inside : Bool} (hc : c ≠ '[') : Slotted inside (.inl c :: u) ↔ Slotted inside u := by
  have hhere : (if inside then .inl '[' ∉ (.inl c :: u : Parts) else AtBrackets Filled (brackets none (.inl c :: u))) ↔
      if inside then .inl '[' ∉ u else AtBrackets Filled (brackets none u) := by
    rw [brackets, if_neg hc, atBrackets_cons]
    simp [hc, Ne.symm hc]
  exact ⟨fun h => ⟨hhere.1 h.here, each_cons_inl.1 h.trees⟩, fun h => ⟨hhere.2 h.here, each_cons_inl.2 h.trees⟩⟩

/-- A subtree is slotted when its own brackets are filled. -/
theorem slotted_cons_inr {inside : Bool} : Slotted inside (.inr w :: u) ↔ w.Every (AtBrackets Filled) ∧ Slotted inside u := by
  have hhere : (if inside then .inl '[' ∉ (.inr w :: u : Parts) else AtBrackets Filled (brackets none (.inr w :: u))) ↔
      if inside then .inl '[' ∉ u else AtBrackets Filled (brackets none u) := by
    rw [brackets, atBrackets_cons]
    simp
  exact ⟨fun h => ⟨(each_cons_inr.1 h.trees).1, hhere.1 h.here, (each_cons_inr.1 h.trees).2⟩,
    fun h => ⟨hhere.2 h.2.here, each_cons_inr.2 ⟨h.1, h.2.trees⟩⟩⟩

/-- Brackets may stand where none is open, and there must be none in them. -/
theorem slotted_bracket {inside : Bool} (hx : (∀ c ∈ ['[', ']'], .inl c ∉ x) ∨
    ∃ y z : Parts, x = y ++ .inl '[' :: z ∧ .inl '[' ∉ y ∧ .inl ']' ∉ y) :
    Slotted inside (.inl '[' :: (x ++ .inl ']' :: u)) ↔ inside = false ∧ Slotted true x ∧ Slotted false u := by
  cases inside with
  | true => exact ⟨fun h => absurd (by simp) h.here, fun h => absurd h.1 (by simp)⟩
  | false =>
    rcases hx with hfree | ⟨y, z, rfl, hopen, hclose⟩
    · have hfilled := filled_brackets_bracket (hfree '[' (by simp)) (hfree ']' (by simp)) u
      constructor
      · intro h
        have htrees := h.trees
        simp only [each_cons_inl, each_append] at htrees
        exact ⟨rfl, ⟨by simpa using hfree '[' (by simp), htrees.1⟩, ⟨by simpa using hfilled.1 (by simpa using h.here), htrees.2⟩⟩
      · rintro ⟨-, hx, hu⟩
        exact ⟨by simpa using hfilled.2 (by simpa using hu.here), by simpa using ⟨hx.trees, hu.trees⟩⟩
    · constructor
      · intro h
        refine absurd ?_ (not_filled_brackets hopen hclose (z ++ .inl ']' :: u))
        simpa using h.here
      · exact fun h => absurd (by simp) h.2.1.here

end

end Parts

namespace Source

/-- Whether no bracket opens directly inside another one: the innermost delimiter that is open there is no bracket. The state holds the
open delimiters, innermost first. -/
def apart : List Char → Text → Bool
  | _, [] => true
  | opened, c :: rest =>
    if isOpener c then !(c == '[' && opened.head? == some '[') && apart (c :: opened) rest
    else apart (if (openerOf? c).isSome then opened.tail else opened) rest

section
variable {opener closer : Char}

/-- An opening bracket directly within another one is not apart. -/
theorem apart_opener (hpair : openerOf? closer = some opener) (opened : List Char) (t : Text) :
    apart opened (opener :: t) = (!(opener == '[' && opened.head? == some '[') && apart (opener :: opened) t) := by
  rcases openerOf?_eq_some hpair with ⟨rfl, -⟩ | ⟨rfl, -⟩ | ⟨rfl, -⟩ <;> rfl

/-- A closing delimiter goes back to the delimiter around. -/
theorem apart_closer (hpair : openerOf? closer = some opener) (c : Char) (opened : List Char) (t : Text) :
    apart (c :: opened) (closer :: t) = apart opened t := by
  rcases openerOf?_eq_some hpair with ⟨-, rfl⟩ | ⟨-, rfl⟩ | ⟨-, rfl⟩ <;> rfl

/-- Characters other than delimiters do not matter to being apart. -/
theorem apart_other {u : Text} (hu : ∀ c ∈ u, isDelimiter c = false) (opened : List Char) (t : Text) :
    apart opened (u ++ t) = apart opened t := by
  induction u with
  | nil => rfl
  | cons c u ih =>
    simp only [List.mem_cons, forall_eq_or_imp, isDelimiter, Bool.or_eq_false_iff] at hu
    rw [List.cons_append, apart, hu.1.1, hu.1.2]
    exact ih fun d hd => by simp [isDelimiter, hu.2 d hd]

end

end Source

namespace Line

open Source

section
variable {val : Nat → Tree} {s s' : Line} {m : Mark}

/-- The characters of a mark that is no delimiter are none. -/
theorem isDelimiter_of_mem_text (hm : ∀ c, m = .char c → isDelimiter c = false) {c : Char} (hc : c ∈ m.text) : isDelimiter c = false := by
  cases m with
  | char d => exact hm c (by rw [List.mem_singleton.1 hc])
  | ref k =>
    by_contra hdelimiter
    have hcases : c ∈ ['(', ')', '{', '}', '[', ']'] := by
      simp only [isDelimiter, isOpener, Bool.not_eq_false, Bool.or_eq_true, beq_iff_eq, Option.isSome_iff_exists] at hdelimiter
      rcases hdelimiter with ((rfl | rfl) | rfl) | ⟨o, ho⟩
      · simp
      · simp
      · simp
      · rcases openerOf?_eq_some ho with ⟨-, rfl⟩ | ⟨-, rfl⟩ | ⟨-, rfl⟩ <;> simp
    refine not_mem_token ?_ ?_ ?_ k hc <;> fin_cases hcases <;> decide

/-- The brackets that are left when the other groups have become trees: there are none, or one opens first. -/
theorem Nested.first_bracket (h : Nested s) :
    (∀ c ∈ ['[', ']'], .inl c ∉ Parts.groups [] [] (s.parts val)) ∨
      ∃ u v : Parts, Parts.groups [] [] (s.parts val) = u ++ .inl '[' :: v ∧ .inl '[' ∉ u ∧ .inl ']' ∉ u := by
  have hcons : ∀ {m : Char ⊕ Tree} {t : Parts}, m ≠ .inl '[' → m ≠ .inl ']' →
      ((∀ c ∈ ['[', ']'], .inl c ∉ t) ∨ ∃ u v : Parts, t = u ++ .inl '[' :: v ∧ .inl '[' ∉ u ∧ .inl ']' ∉ u) →
      (∀ c ∈ ['[', ']'], .inl c ∉ m :: t) ∨ ∃ u v : Parts, m :: t = u ++ .inl '[' :: v ∧ .inl '[' ∉ u ∧ .inl ']' ∉ u := by
    rintro m t hopen hclose (hfree | ⟨u, v, rfl, hu, hu'⟩)
    · refine .inl fun c hc hmem => (List.mem_cons.1 hmem).elim (fun heq => ?_) (hfree c hc)
      simp only [List.mem_cons, List.not_mem_nil, or_false] at hc
      rcases hc with rfl | rfl
      · exact hopen heq.symm
      · exact hclose heq.symm
    · exact .inr ⟨m :: u, v, rfl, by simpa using ⟨Ne.symm hopen, hu⟩, by simpa using ⟨Ne.symm hclose, hu'⟩⟩
  induction h with
  | nil => exact .inl (by simp [Parts.groups])
  | @mark m s hm hs ih =>
    have hne : ∀ c, isDelimiter c = true → m.part val ≠ .inl c := by
      intro c hc heq
      cases m with
      | char d =>
        obtain rfl := Sum.inl.inj heq
        rw [hm d rfl] at hc
        cases hc
      | ref k => cases heq
    rw [parts_cons, groups_mark hm, hs.groups_nil]
    exact hcons (hne '[' (by decide)) (hne ']' (by decide)) ih
  | @group opener closer inner s hpair hne hinner hs _ ih =>
    rw [List.cons_append, parts_cons, parts_append, parts_cons]
    simp only [Mark.part]
    by_cases hb : opener = '['
    · subst hb
      obtain rfl : closer = ']' := Source.closer_unique hpair (by rfl)
      rw [Parts.groups_other (by simp), hinner.groups, Parts.groups_other (by simp), hs.groups_nil]
      exact .inr ⟨[], Parts.groups [] [] (parts val inner) ++ .inl ']' :: Parts.groups [] [] (parts val s), by simp, by simp, by simp⟩
    · rw [hinner.groups_group hpair hb, hs.groups_nil]
      exact hcons (by simp) (by simp) ih

/-- In a nested line no bracket opens directly inside another one just when all brackets hold a single tree once they have been taken apart,
with no brackets in the line itself if one is open before it. -/
theorem Nested.apart_iff (h : Nested s) (hval : ∀ k, .ref k ∈ s → (val k).Every (Parts.AtBrackets Parts.Filled)) (opened : List Char)
    (rest : Text) : apart opened (s.text ++ rest) = true ↔
      Parts.Slotted (opened.head? == some '[') (Parts.groups [] [] (s.parts val)) ∧ apart opened rest = true := by
  induction h generalizing opened rest with
  | nil => simp [Parts.groups, Parts.slotted_nil]
  | @mark m s hm hs ih =>
    rw [text_cons, List.append_assoc, apart_other fun c hc => isDelimiter_of_mem_text hm hc,
      ih (fun k hk => hval k (List.mem_cons_of_mem _ hk)), parts_cons, groups_mark hm, hs.groups_nil [m.part val] []]
    cases m with
    | char c =>
      have hc : c ≠ '[' := fun heq => absurd (hm c rfl) (by rw [heq]; decide)
      simp [Mark.part, Parts.slotted_cons_inl hc]
    | ref k => simp [Mark.part, Parts.slotted_cons_inr, hval k (by simp)]
  | @group o c inner s hpair hne hinner hs ihinner ihs =>
    have htext : text (.char o :: inner ++ .char c :: s) ++ rest = o :: (text inner ++ c :: (text s ++ rest)) := by simp [Mark.text]
    rw [htext, apart_opener hpair, Bool.and_eq_true, ihinner fun k hk => hval k (by simp [hk]), apart_closer hpair,
      ihs fun k hk => hval k (by simp [hk]), List.cons_append, parts_cons, parts_append, parts_cons]
    simp only [Mark.part]
    by_cases hb : o = '['
    · subst hb
      obtain rfl : c = ']' := Source.closer_unique hpair (by rfl)
      have hgroups : Parts.groups [] [] (.inl '[' :: (parts val inner ++ .inl ']' :: parts val s)) =
          .inl '[' :: (Parts.groups [] [] (parts val inner) ++ .inl ']' :: Parts.groups [] [] (parts val s)) := by
        rw [Parts.groups_other (by simp), hinner.groups, Parts.groups_other (by simp), hs.groups_nil]
        simp
      rw [hgroups, Parts.slotted_bracket hinner.first_bracket]
      cases opened.head? == some '[' <;> simp [and_assoc]
    · have hgroups : Parts.groups [] [] (.inl o :: (parts val inner ++ .inl c :: parts val s)) =
          .inr (Parts.stand (Parts.flat (parts val inner))) :: Parts.groups [] [] (parts val s) := by
        rw [hinner.groups_group hpair hb, hs.groups_nil]
        simp
      rw [hgroups, Parts.slotted_cons_inr, Parts.every_stand fun _ => Parts.atBrackets_of_not_mem, Parts.every_flat_iff]
      simp [beq_false_of_ne hb, and_assoc]

end

end Line

namespace Source

open Line

/-- Flattening fills the brackets of a line exactly when they are apart. -/
theorem every_flat_iff_apart {s : Line} (h : s.Nested) {val : Nat → Tree}
    (hval : ∀ k, .ref k ∈ s → (val k).Every (Parts.AtBrackets Parts.Filled)) :
    Tree.Every (Parts.AtBrackets Parts.Filled) (.node (Parts.flat (s.parts val))) ↔ apart [] s.text = true := by
  have hiff := h.apart_iff hval [] []
  rw [List.append_nil] at hiff
  rw [Parts.every_flat_iff, hiff]
  simp [apart]

/-- In the tree of a source text all brackets hold a single tree just when none of the text opens directly inside another one. -/
theorem every_tree_iff {t : Text} (hnested : (ofText t).Nested) (hne : t ≠ []) :
    (tree t).Every (Parts.AtBrackets Parts.Filled) ↔ apart [] t = true := by
  obtain ⟨s, htext, hwraps, hs, hsne⟩ := hnested.unwrap (by simpa [ofText] using hne)
  rw [text_ofText] at htext
  have hrefs : ∀ k, .ref k ∉ s := fun k hk => by simpa [ofText] using hwraps.subset hk
  have hstand : Parts.stand (Parts.flat ((ofText t).parts fun _ => Tree.node [])) = Parts.stand (Parts.flat (s.parts fun _ => Tree.node [])) :=
    (hwraps.stand_eq hs hsne).2
  have hfree : ∀ u : Parts, .inl '[' ∉ u → Parts.AtBrackets Parts.Filled u := fun _ => Parts.atBrackets_of_not_mem
  calc (tree t).Every (Parts.AtBrackets Parts.Filled)
    _ ↔ (Parts.stand (Parts.flat (s.parts fun _ => Tree.node []))).Every (Parts.AtBrackets Parts.Filled) := by
      rw [tree, htext, parts_eq_map_inl hrefs, Parts.every_stand hfree]
    _ ↔ Tree.Every (Parts.AtBrackets Parts.Filled) (.node (Parts.flat ((ofText t).parts fun _ => Tree.node []))) := by
      rw [← hstand, Parts.every_stand hfree]
    _ ↔ apart [] t = true := by
      rw [every_flat_iff_apart hnested (by simp [ofText]), text_ofText]

/-- In the tree of a text innermost brackets hold a single tree. -/
theorem tree_settled (t : Text) : (tree t).Every (Parts.AtBrackets Parts.Settled) :=
  Parts.every_flat (fun _ => Parts.atBrackets_of_not_mem) (fun u => (Parts.settled_brackets u).1) (by simp [Parts.Each])

end Source

end FormulaDag
