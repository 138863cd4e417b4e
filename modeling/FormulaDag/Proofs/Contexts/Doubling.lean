import FormulaDag.Proofs.Contexts.Permutation
import FormulaDag.Proofs.Pool.Smoothness
import FormulaDag.Proofs.Pool.SourceTree
import FormulaDag.Proofs.Source.Doubling

/-!
# Contexts of a text with doubled parentheses

A group in doubled parentheses stands for the same tree, so the pools of both texts mirror each other before reduction. When both are
reduced smoothly they mirror each other afterwards too, whatever was merged on the way, and the contexts are the same up to their numbers.
-/

namespace FormulaDag

open Contexts (Renumbered)

namespace Pool

section
variable {all : List (Nat × Rule)} {val val' : Nat → Tree} {f : Nat → Nat} {p p' : Pool}

/-- What is promised of a pool is promised of its mirror. -/
theorem Promised.mirrored (h : Promised all val p) (hmirrors : Mirrors f p' p) (hwritten : p'.Written)
    (hsmall : p'.cells.length ≤ Index.bound) : Promised all (fun k => val (f k)) p' where
  written := hwritten
  small := hsmall
  pointed k hk := by rw [hmirrors.pointed k hk]
  reduces x u hu := by
    have hreduces := h.reduces _ _ (hmirrors.writes x u hu)
    rwa [map_part_relabel] at hreduces

/-- Pools for the same tree are reduced to pools for the same tree, when both are reduced smoothly. -/
theorem exists_reduce_of_root_eq {r : RuleSet} {q : Pool} {base : Nat → Tree} {write : Char → Text} {goal : Text}
    (h : p.Ripe val) (h' : p'.Ripe val') (hplain : Plain [] write goal p')
    (hroot : val' Index.root = val Index.root) (hok : reduce r p = .ok q) (hq : q.Denotes [] [] base)
    (hsmall : q.cells.length ≤ Index.bound) (hreach : p'.reach ≤ Index.bound) (hsmooth : reducesSmoothly r p = true)
    (hsmooth' : reducesSmoothly r p' = true) :
    ∃ q' base', reduce r p' = .ok q' ∧ q'.cells.length ≤ p'.reach ∧ q'.Denotes [] [] base' ∧ base' Index.root = base Index.root := by
  obtain ⟨f, hmirrors, -⟩ := h'.exists_mirror hplain h hroot
  have hpromised := hq.promised ⟨h.sound, h.written⟩ hsmooth hok hsmall
  obtain ⟨q', base', hok', honward, hq'⟩ :=
    (hpromised.mirrored hmirrors ⟨h'.sound, h'.written⟩ h'.small).exists_reduce hsmooth' hreach
  refine ⟨q', base', hok', (Nat.le_add_right _ _).trans honward.reach, hq', ?_⟩
  rw [honward.agree _ h'.rooted, hmirrors.root, hpromised.pointed _ h.rooted]

end

namespace Complete
variable {names : List Text} {letters : List Char} {n n' : Nat} {base base' meaning meaning' : Nat → Tree} {p p' : Pool} {write : Char → Text}
  {goal goal' : Text}

/-- Complete pools whose roots have the same tree cover each other. -/
theorem covered_of_root_eq (h : p.Complete names letters n base meaning) (h' : p'.Complete names letters n' base' meaning')
    (hletters : ∀ l ∈ letters, l.isLower = true) (hplain : Plain letters write goal p)
    (hroot : meaning Index.root = meaning' Index.root) : Covered p p' meaning meaning' := by
  intro x hx
  rcases h.ripe.exists_counterpart hplain h'.ripe hroot hx with hcounterpart | ⟨c, hc, htext⟩
  · exact hcounterpart
  · obtain ⟨s, hs⟩ := h.ripe.written x hx
    have hline : s = Line.ofText (letterText c) := by
      have hplainLetter : (Line.ofText (letterText c)).Within 0 := .ofText (letterText_facts (hletters c hc)).2.1
      exact hs.within.text_injective hplainLetter (by rw [Line.text_ofText, ← hs.text, htext])
    obtain ⟨z, hz, heq⟩ := h'.grown.cells c hc
    refine ⟨p'.resolve z, h'.ripe.sound.holds_resolve hz, ?_⟩
    rw [h'.grown.denotes.pointed z hz, heq, h.grown.denotes.eq_tree hs, hline, Line.tree_letterText hletters hc]

/-- Complete pools whose roots have the same tree are frozen into contexts that differ in their numbers only. -/
theorem renumbered_of_root_eq (h : p.Complete names letters n base meaning) (h' : p'.Complete names letters n' base' meaning')
    (hletters : ∀ l ∈ letters, l.isLower = true) (hplain : Plain letters write goal p) (hplain' : Plain letters write goal' p')
    (hroot : meaning Index.root = meaning' Index.root) : Renumbered (SameTree p p' meaning meaning') p.toContexts p'.toContexts :=
  h.ripe.renumbered h'.ripe hroot (h.covered_of_root_eq h' hletters hplain hroot)
    (h'.covered_of_root_eq h hletters hplain' hroot.symm)

end Complete

section
variable {s : RuleSet} {names : List Text} {letters : List Char} {text text' : Text} {p : Pool}

/-- A text without fault is taken apart into a pool in which the root stands for the tree of the text. -/
theorem exists_ripe_ofGroups (hfault : Source.fault? s letters text = none) (hsmall : (ofGroups text).cells.length ≤ Index.bound) :
    ∃ val, (ofGroups text).Ripe val ∧ Plain [] (fun _ => []) (text.flatMap fun _ => []) (ofGroups text) ∧
      val Index.root = Source.tree text := by
  obtain ⟨hne, hat, hnested⟩ := Source.facts_of_fault? hfault
  obtain ⟨hplain, htidied⟩ : Plain [] (fun _ => []) (text.flatMap fun _ => []) (ofGroups text) ∧ ∀ x, Tidied (ofGroups text) x :=
    plain_ofGroups hnested hne hat fun _ _ => rfl
  obtain ⟨val, hdenotes, hroot⟩ := exists_denotes_ofGroups hnested hne hat hsmall
  exact ⟨val, hdenotes.ripe hplain htidied hsmall, hplain, hroot⟩

/-- Texts that stand for the same tree have the same contexts up to their numbers, when both are reduced smoothly. -/
theorem exists_renumbered_of_tree_eq (hletters : Source.declare s names = .ok letters) (hfault : Source.fault? s letters text = none)
    (hfault' : Source.fault? s letters text' = none) (htree : Source.tree text' = Source.tree text) (hp : ofSource s text = .ok p)
    (hsmall : (p.bindLetters s.functionNames letters).cells.length ≤ Index.bound)
    (hreach : (ofGroups text').reach + letters.length ≤ Index.bound) (hsmooth : reducesSmoothly s (ofGroups text) = true)
    (hsmooth' : reducesSmoothly s (ofGroups text') = true) :
    ∃ p' ρ, ofSource s text' = .ok p' ∧
      Renumbered ρ (p.bindLetters s.functionNames letters).freeze (p'.bindLetters s.functionNames letters).freeze := by
  have hwrite : ∀ c ∈ ['(', ')', '{', '}'], (fun _ => [] : Char → Text) c = [] := fun _ _ => rfl
  have hlower := (Source.declare_facts hletters).2
  have hpsmall := Nat.le_trans (length_le_bindLetters _ _ _) hsmall
  have hgroups : (ofGroups text).cells.length ≤ Index.bound := by
    rw [ofGroups, length_cells_canonical]
    exact Nat.le_trans (length_le_ofSource hp) hpsmall
  have hgroups' : (ofGroups text').cells.length ≤ Index.bound :=
    Nat.le_trans (Nat.le_trans (Nat.le_add_right _ _) (Nat.le_add_right _ _)) hreach
  obtain ⟨val, hripe, hplain, hroot⟩ := exists_ripe_ofGroups hfault hgroups
  obtain ⟨val', hripe', hplain', hroot'⟩ := exists_ripe_ofGroups hfault' hgroups'
  obtain ⟨q, hq, rfl⟩ := map_eq_ok.1 hp
  rw [length_cells_canonical] at hpsmall
  -- reduction leads both pools to the same tree
  obtain ⟨base, hbase⟩ := (hplain.reduce hq).exists_denotes [] []
  obtain ⟨q', base', hq', hsize, hbase', hbaseRoot⟩ := exists_reduce_of_root_eq hripe hripe' hplain'
    (hroot'.trans (htree.trans hroot.symm)) hq hbase hpsmall (Nat.le_trans (Nat.le_add_right _ _) hreach) hsmooth hsmooth'
  have hp' : ofSource s text' = .ok q'.canonical := map_eq_ok.2 ⟨q', hq', rfl⟩
  have hqsmall' : q'.cells.length ≤ Index.bound := hsize.trans (Nat.le_trans (Nat.le_add_right _ _) hreach)
  obtain ⟨hplainC, htidiedC⟩ := plain_and_tidied_ofSource hp hfault hwrite
  obtain ⟨hplainC', htidiedC'⟩ := plain_and_tidied_ofSource hp' hfault' hwrite
  have hripeC := (hbase.canonical hpsmall).ripe hplainC htidiedC (length_cells_canonical q ▸ hpsmall)
  have hripeC' := (hbase'.canonical hqsmall').ripe hplainC' htidiedC' (length_cells_canonical q' ▸ hqsmall')
  obtain ⟨f, hmirrors, -⟩ := hripeC'.exists_mirror hplainC' hripeC hbaseRoot
  -- and so does binding the variables
  obtain ⟨bound, hbound⟩ := hplainC.exists_denotes s.functionNames letters
  have hbound' := hmirrors.denotes hripeC'.sound hripeC'.written hbound
  obtain ⟨_, hgrown'⟩ := hbound'.exists_grown hletters (.refl _)
  have hsmall' : (q'.canonical.bindLetters s.functionNames letters).cells.length ≤ Index.bound := by
    have hlength := hgrown'.length_le
    rw [length_cells_canonical] at hlength
    exact hlength.trans ((Nat.add_le_add_right hsize _).trans hreach)
  obtain ⟨meaning, hcomplete⟩ := hbound.exists_complete hp hfault hletters (.refl _) hsmall
  obtain ⟨meaning', hcomplete'⟩ := hbound'.exists_complete hp' hfault' hletters (.refl _) hsmall'
  have hfrozen := (plain_bound hp hfault hletters hwrite fun _ => by simp).1
  have hfrozen' := (plain_bound hp' hfault' hletters hwrite fun _ => by simp).1
  have hroots : meaning Index.root = meaning' Index.root := by
    rw [hcomplete.grown.kept _ hcomplete.rooted, hcomplete'.grown.kept _ hcomplete'.rooted, hmirrors.root, hbound.pointed _ hripeC.rooted]
  exact ⟨q'.canonical, _, hp', hcomplete.renumbered_of_root_eq hcomplete' hlower hfrozen hfrozen' hroots⟩

end

end Pool

namespace Contexts

variable {s : RuleSet} {names : List Text} {letters : List Char} {p q t : Text} {c : Contexts}

theorem groupFault_of_fault? {text : Text} (h : Source.fault? s letters text = none) : Source.groupFault [] none text = none := by
  unfold Source.fault? at h
  split at h
  · cases h
  · split at h
    · cases h
    · split at h
      · cases h
      · assumption

/-- The contexts of a text with a group in doubled parentheses are those of the text with the group in a single pair, up to their numbers,
when both are reduced smoothly. -/
theorem ofSource_doubled (hletters : Source.declare s names = .ok letters) (hblank : ∀ d ∈ p ++ q ++ t, Text.isBlank d = false)
    (hq : Text.balanced q = true) (h : ofSource s letters (p ++ '(' :: q ++ ')' :: t) = .ok c)
    (hsmall : created s letters (p ++ '(' :: q ++ ')' :: t) ≤ Index.bound)
    (hreach : (Pool.ofGroups (p ++ '(' :: '(' :: q ++ ')' :: ')' :: t)).reach + letters.length ≤ Index.bound)
    (hsmooth : Pool.reducesSmoothly s (Pool.ofGroups (p ++ '(' :: q ++ ')' :: t)) = true)
    (hsmooth' : Pool.reducesSmoothly s (Pool.ofGroups (p ++ '(' :: '(' :: q ++ ')' :: ')' :: t)) = true) :
    ∃ c' ρ, ofSource s letters (p ++ '(' :: '(' :: q ++ ')' :: ')' :: t) = .ok c' ∧ Renumbered ρ c c' := by
  have hsigns : ∀ d, d ∈ p ++ q ++ t ∨ d = '(' ∨ d = ')' → Text.isBlank d = false := by
    rintro d (hd | rfl | rfl)
    · exact hblank d hd
    · rfl
    · rfl
  have hstrip := Source.stripBlanks_eq_self s.functionNames (t := p ++ '(' :: q ++ ')' :: t) fun d hd =>
    hsigns d (by simp at hd ⊢; tauto)
  have hstrip' := Source.stripBlanks_eq_self s.functionNames (t := p ++ '(' :: '(' :: q ++ ')' :: ')' :: t) fun d hd =>
    hsigns d (by simp at hd ⊢; tauto)
  have hfault := fault?_of_ofSource h
  rw [hstrip] at hfault
  obtain ⟨hnested, hne⟩ := Source.nested_of_balanced (groupFault_of_fault? hfault) hq
  have htree := Source.tree_doubled hnested hne p t
  have hfault' := (Source.fault?_doubled s letters hnested hne (p := p) (t := t)).trans hfault
  rw [ofSource, hstrip, hfault] at h
  rw [created, hstrip] at hsmall
  obtain ⟨pool, hpool, rfl⟩ := map_eq_ok.1 (mapError_eq_ok.1 h)
  rw [hpool] at hsmall
  obtain ⟨pool', ρ, hpool', hrenumbered⟩ :=
    Pool.exists_renumbered_of_tree_eq hletters hfault hfault' htree hpool hsmall hreach hsmooth hsmooth'
  refine ⟨_, ρ, ?_, hrenumbered⟩
  rw [ofSource, hstrip', hfault']
  simp only
  rw [ofWellFormed, hpool']
  rfl

/-- The pool of a product of sums once its groups have been taken apart. -/
def productPool : Pool := ⟨[.holding "@/1/@*x".toList, .holding "x+x".toList], [("@/1/@*x".toList, 0), ("x+x".toList, 1)]⟩

theorem ofSource_doubled_product : ∃ c c' ρ, ofSource .standard ['x'] "(x+x)*x".toList = .ok c ∧
    ofSource .standard ['x'] "((x+x))*x".toList = .ok c' ∧ Renumbered ρ c c' := by
  have hgroups : Pool.ofGroups "(x+x)*x".toList = productPool := by decide +kernel
  have hgroups' : Pool.ofGroups "((x+x))*x".toList = productPool := by decide +kernel
  have hreach : productPool.reach = 17 := by decide +kernel
  have hsmooth : Pool.reducesSmoothly .standard productPool = true := by decide +kernel
  have hbound : (Pool.ofGroups "((x+x))*x".toList).reach + ['x'].length ≤ Index.bound := by rw [hgroups', hreach]; simp [Index.bound]
  obtain ⟨c', ρ, hc', hrenumbered⟩ := ofSource_doubled (p := []) (q := "x+x".toList) (t := "*x".toList) declare_x (by simp [Text.isBlank]) (by decide)
    ofSource_product_eq created_product hbound (hgroups ▸ hsmooth) (hgroups' ▸ hsmooth)
  exact ⟨_, c', ρ, ofSource_product_eq, hc', hrenumbered⟩

/-! ### A reduction that is not smooth -/

/-- The pool of a text in which a group occurs with a single pair of parentheses throughout: index 2 comes before index 4, whose text it
takes on when its sine is extracted. -/
def singlePool : Pool :=
  ⟨[.holding "@/1/@@/2/@@/4/@@/2/@".toList, .holding "@/5/@a".toList, .holding "\\ln\\sin@/1/@^2".toList, .holding "\\sin@/1/@".toList,
      .holding "\\ln@/3/@^2".toList, .holding "a".toList],
    [("@/5/@a".toList, 1), ("a".toList, 5), ("@/1/@@/2/@@/4/@@/2/@".toList, 0), ("\\ln@/3/@^2".toList, 4), ("\\sin@/1/@".toList, 3),
      ("\\ln\\sin@/1/@^2".toList, 2)]⟩

/-- What `singlePool` is reduced to: the logarithm is extracted before the square. -/
def singleReduced : Pool :=
  ⟨[.holding "@/1/@@/2/@@/4/@@/2/@".toList, .holding "@/5/@a".toList, .pointing 4, .holding "\\sin@/1/@".toList,
      .holding "@/6/@^@/7/@".toList, .holding "a".toList, .holding "\\ln@/3/@".toList, .holding "2".toList],
    [("@/6/@^@/7/@".toList, 4), ("2".toList, 7), ("\\ln@/3/@".toList, 6), ("@/5/@a".toList, 1), ("a".toList, 5),
      ("@/1/@@/2/@@/4/@@/2/@".toList, 0), ("\\sin@/1/@".toList, 3)]⟩

/-- The pool of the same text with one pair doubled: index 6 comes after index 5, which is reduced when the sine is extracted. -/
def doubledPool : Pool :=
  ⟨[.holding "@/1/@@/6/@@/5/@@/6/@".toList, .holding "@/7/@a".toList, .pointing 1, .pointing 6, .holding "\\sin@/1/@".toList,
      .holding "\\ln@/4/@^2".toList, .holding "\\ln\\sin@/1/@^2".toList, .holding "a".toList],
    [("@/1/@@/6/@@/5/@@/6/@".toList, 0), ("@/7/@a".toList, 1), ("a".toList, 7), ("\\ln\\sin@/1/@^2".toList, 6),
      ("\\ln@/4/@^2".toList, 5), ("\\sin@/1/@".toList, 4)]⟩

/-- What `doubledPool` is reduced to: in index 6 the square is extracted before the logarithm. -/
def doubledReduced : Pool :=
  ⟨[.holding "@/1/@@/6/@@/5/@@/6/@".toList, .holding "@/7/@a".toList, .pointing 1, .pointing 6, .holding "\\sin@/1/@".toList,
      .holding "@/8/@^@/9/@".toList, .holding "\\ln@/10/@".toList, .holding "a".toList, .holding "\\ln@/4/@".toList, .holding "2".toList,
      .holding "@/4/@^@/9/@".toList],
    [("@/4/@^@/9/@".toList, 10), ("\\ln@/10/@".toList, 6), ("@/8/@^@/9/@".toList, 5), ("2".toList, 9), ("\\ln@/4/@".toList, 8),
      ("@/1/@@/6/@@/5/@@/6/@".toList, 0), ("@/7/@a".toList, 1), ("a".toList, 7), ("\\sin@/1/@".toList, 4)]⟩

/-- The contexts of a text without blanks and without fault, step by step. -/
theorem ofSource_of_steps {r : RuleSet} {l : List Char} {text : Text} {grouped reduced : Pool} {texts : List Text}
    (hstrip : Source.stripBlanks r.functionNames text = text) (hfault : Source.fault? r l text = none)
    (hgroups : Pool.ofGroups text = grouped) (hreduce : Pool.reduce r grouped = .ok reduced)
    (hfreeze : (reduced.canonical.bindLetters r.functionNames l).freeze.entries = (ofTexts texts).entries) :
    ofSource r l text = .ok (ofTexts texts) := by
  rw [ofSource, hstrip, hfault]
  simp only
  rw [ofWellFormed, Pool.ofSource, hgroups, hreduce, Except.map, Except.map, ext_entries hfreeze]
  rfl

/-- One of the texts, with the group in a single pair or in a doubled one, is read in another way than the other: with a single pair the
square of a logarithm is found where with a doubled pair there is the logarithm of a square. -/
theorem exists_doubled_otherwise : ∃ (p q t : Text) (c c' : Contexts), Text.balanced q = true ∧
    ofSource .standard ['a'] (p ++ '(' :: q ++ ')' :: t) = .ok c ∧
    ofSource .standard ['a'] (p ++ '(' :: '(' :: q ++ ')' :: ')' :: t) = .ok c' ∧ ∀ ρ, ¬Renumbered ρ c c' := by
  refine ⟨"\x7b(a)a\x7d\x7b\\ln\\sin\x7b".toList, "a".toList,
    "a\x7d^2\x7d\x7b\\ln\x7b\\sin\x7b(a)a\x7d\x7d^2\x7d\x7b\\ln\\sin\x7b(a)a\x7d^2\x7d".toList,
    .ofTexts ["@/1/@@/3/@@/3/@@/3/@".toList, "@/4/@@/4/@".toList, "\\sin@/1/@".toList, "@/5/@^@/6/@".toList, "a".toList,
      "\\ln@/2/@".toList, "2".toList],
    .ofTexts ["@/1/@@/4/@@/3/@@/4/@".toList, "@/5/@@/5/@".toList, "\\sin@/1/@".toList, "@/6/@^@/7/@".toList, "\\ln@/8/@".toList,
      "a".toList, "\\ln@/2/@".toList, "2".toList, "@/2/@^@/7/@".toList], rfl, ?_, ?_, fun ρ h => ?_⟩
  · have hgroups : Pool.ofGroups
        "\x7b(a)a\x7d\x7b\\ln\\sin\x7b(a)a\x7d^2\x7d\x7b\\ln\x7b\\sin\x7b(a)a\x7d\x7d^2\x7d\x7b\\ln\\sin\x7b(a)a\x7d^2\x7d".toList =
        singlePool := by decide +kernel
    have hreduce : Pool.reduce .standard singlePool = .ok singleReduced := by decide +kernel
    exact ofSource_of_steps (by decide +kernel) (by decide +kernel) hgroups hreduce (by decide +kernel)
  · have hgroups : Pool.ofGroups
        "\x7b(a)a\x7d\x7b\\ln\\sin\x7b((a))a\x7d^2\x7d\x7b\\ln\x7b\\sin\x7b(a)a\x7d\x7d^2\x7d\x7b\\ln\\sin\x7b(a)a\x7d^2\x7d".toList =
        doubledPool := by decide +kernel
    have hreduce : Pool.reduce .standard doubledPool = .ok doubledReduced := by decide +kernel
    exact ofSource_of_steps (by decide +kernel) (by decide +kernel) hgroups hreduce (by decide +kernel)
  · -- the roots refer to different numbers of indices
    obtain ⟨t', ht', hrenamed⟩ := h.get? h.root (get?_ofTexts _ 0)
    cases (get?_ofTexts _ 0).symm.trans ht'
    have hlength := (hrenamed.references h.unique).length_eq
    have hrefs : Token.references "@/1/@@/3/@@/3/@@/3/@".toList = [1, 3] := by decide +kernel
    have hrefs' : Token.references "@/1/@@/4/@@/3/@@/4/@".toList = [1, 4, 3] := by decide +kernel
    rw [hrefs, hrefs'] at hlength
    cases hlength

end Contexts

end FormulaDag
