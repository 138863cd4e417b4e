import FormulaDag.Proofs.Pool.Flattening

/-!
# Pools without groups

Braces are taken apart first, then parentheses and brackets, text by text. This leaves a pool whose texts hold no groups but
brackets, and whose root means what the source says.
-/

namespace FormulaDag.Pool

open Growth

/-- What a text may be while the groups of a pool are taken apart: without groups but brackets, or waiting with its parentheses. -/
def Grouped (waits : Prop) (t : Text) : Prop :=
  ∃ (n : Nat) (s : Line), s.Within n ∧ Line.text s = t ∧ (s.Bracketed ∨ (waits ∧ s.Braceless))

/-- A pool that means what it should and in which the given cells wait for their parentheses to be taken apart. -/
structure Pending (write : Char → Text) (goal : Text) (waiting : List Nat) (p : Pool) : Prop where
  stands : Stands [] write goal p
  grouped : ∀ x, p.holds x = true → Grouped (x ∈ waiting) (p.text x)

section
variable {write : Char → Text} {goal : Text}

theorem Pending.mono {waiting waiting' : List Nat} {p : Pool} (h : Pending write goal waiting p)
    (hsub : ∀ x, p.holds x = true → x ∈ waiting → x ∈ waiting') : Pending write goal waiting' p where
  stands := h.stands
  grouped x hx := by
    obtain ⟨n, s, hwithin, htext, hs⟩ := h.grouped x hx
    exact ⟨n, s, hwithin, htext, hs.imp id fun hw => ⟨hsub x hx hw.1, hw.2⟩⟩

/-- The cell in front is taken apart. -/
theorem Pending.reduceGroupsOf (hwrite : ∀ c ∈ ['(', ')'], write c = []) {g : Growth} {i : Nat} {waiting : List Nat}
    (h : Pending write goal (i :: waiting) g.pool) :
    Pending write goal waiting (g.reduceGroupsOf i).pool := by
  by_cases hi : g.pool.holds i = true
  · obtain ⟨s, htext, hdraft⟩ := h.stands.draft hi
    obtain ⟨n, s', hwithin, hs'text, hs'⟩ := h.grouped i hi
    obtain rfl := hwithin.text_injective hdraft.within (hs'text.trans htext)
    have hunder : Under write goal (fun x t => Grouped (x ∈ waiting) t) (Line.text s') g i s' := by
      refine ⟨hdraft, fun x hx hxi => ?_, htext⟩
      obtain ⟨n, u, hu, hutext, hgroups⟩ := h.grouped x hx
      exact ⟨n, u, hu, hutext, hgroups.imp id fun hw => ⟨(List.mem_cons.1 hw.1).resolve_left hxi, hw.2⟩⟩
    have heq : g.reduceGroupsOf i = (g.reduceText (Line.text s')).1.setText i (g.reduceText (Line.text s')).2 := by
      rw [Growth.reduceGroupsOf, if_pos hi, htext]
    obtain ⟨g', u, hreduce, hunder', hu⟩ := hunder.reduceText (hs'.imp id And.right) hwrite
      (fun n u hwithin hu _ => ⟨n, u, hwithin, rfl, .inl hu⟩)
    rw [heq, hreduce]
    obtain ⟨hstands, hgrouped⟩ := hunder'.settle hu.nonempty fun _ => ⟨_, u, hunder'.drafts.within, rfl, .inl hu⟩
    exact ⟨hstands, hgrouped⟩
  · rw [Growth.reduceGroupsOf, if_neg hi]
    exact h.mono fun x hx hmem => (List.mem_cons.1 hmem).resolve_left fun heq => hi (heq ▸ hx)

theorem Pending.foldl (hwrite : ∀ c ∈ ['(', ')'], write c = []) {g : Growth} {waiting : List Nat}
    (h : Pending write goal waiting g.pool) :
    Pending write goal [] (waiting.foldl Growth.reduceGroupsOf g).pool := by
  induction waiting generalizing g with
  | nil => exact h
  | cons i waiting ih => exact ih (h.reduceGroupsOf hwrite)

/-- A pool in which only the root has a text yet. -/
theorem drafts_empty {source : Text} (hat : '@' ∉ source) :
    Drafts [] write (source.flatMap write) empty Index.root (Line.ofText source) := by
  have hrefs : ∀ k, .ref k ∉ Line.ofText source := by simp [Line.ofText]
  have hroot : ∀ x, empty.holds x = true → x = Index.root := by
    intro x hx
    have := lt_of_holds hx
    simp only [empty, List.length_cons, List.length_nil] at this
    exact Nat.lt_one_iff.1 this
  refine ⟨fun _ => Line.ofText source, fun _ => source.flatMap write, ⟨empty_sound, by decide, fun _ _ => .ofText hat,
    ⟨fun _ => 0, fun x _ k hk => absurd hk (hrefs k)⟩, fun S hS _ x hx => .inl ?_, fun _ _ => ?_, fun _ _ => rfl⟩,
    fun x hx hne => absurd (hroot x hx) hne, rfl, rfl, rfl⟩
  · rwa [hroot x hx]
  · rw [Line.expand, Line.ofText, List.flatMap_map]
    rfl

/-- The braces of a source text are taken apart. -/
theorem Pending.ofBraces (hwrite : ∀ c ∈ ['(', ')', '{', '}'], write c = []) {source : Text}
    (hnested : (Line.ofText source).Nested) (hne : source ≠ []) (hat : '@' ∉ source) :
    Pending write (source.flatMap write) (ofBraces source).holders (ofBraces source) := by
  have hunder : Under write (source.flatMap write) (fun _ t => Grouped True t) [] ⟨empty, []⟩ Index.root
      ([] ++ Line.ofText source ++ []) := by
    refine ⟨by simpa using drafts_empty hat, fun x hx hne => ?_, rfl⟩
    have := lt_of_holds hx
    simp only [empty, List.length_cons, List.length_nil] at this
    exact absurd (Nat.lt_one_iff.1 this) hne
  have hbraceless : ∀ (n : Nat) (u : Line), u.Within n → u.Nested → u ≠ [] → .char '{' ∉ u → .char '}' ∉ u →
      Grouped True (Line.text u) := by
    intro n u hwithin hu hune hopen hclose
    refine ⟨n, u, hwithin, rfl, .inr ⟨trivial, hu, hune, fun c hc => ?_⟩⟩
    simp only [List.mem_cons, List.not_mem_nil, or_false] at hc
    rcases hc with rfl | rfl
    · exact hopen
    · exact hclose
  have hdelimiters : ∀ c ∈ ['{', '}'] ++ ['(', ')'], write c = [] := fun c hc =>
    hwrite c (List.mem_append.2 (List.mem_append.1 hc).symm)
  obtain ⟨g, s, heq, hunder', hflat⟩ := hunder.replaceGroups rfl hdelimiters (.inl rfl) (fun _ => True)
    (fun n u hwithin hu hune hopen hclose _ _ => hbraceless n u hwithin hu hune hopen hclose) hnested (fun _ _ => trivial) [] [] []
  have hs : s ≠ [] := hflat.nonempty (by simpa [Line.ofText] using hne)
  obtain ⟨u, hunwrap, hwraps, hu, hune⟩ := hflat.nested.unwrap hs
  have hwithin : u.Within g.pool.cells.length := hunder'.drafts.within.subset fun m hm => by simp [hwraps.subset hm]
  have hdraft := hunder'.drafts.trim hwithin hwraps.ref_mem_iff
    (hwraps.expand_eq (hwrite _ (by simp)) (hwrite _ (by simp)))
  have hresult : Pool.ofBraces source = g.pool.setText Index.root (Line.text u) := by
    rw [List.append_nil, Line.text_ofText] at heq
    rw [Pool.ofBraces, heq]
    simp [Growth.replaceGroups, hunwrap]
  rw [hresult]
  rw [List.nil_append, List.append_nil] at hdraft
  obtain ⟨j, hq⟩ := hdraft.sound.exists_rewritten hdraft.holds (Line.text_ne_nil hune)
  refine ⟨hdraft.commit (Line.text_ne_nil hune), fun x hx => ?_⟩
  have hgrouped : Grouped True ((g.pool.setText Index.root (Line.text u)).text x) := by
    rcases hq.text_cases hx with htext | ⟨hxi, hxp, htext⟩
    · rw [htext]
      exact hbraceless _ u hwithin hu hune (fun hmem => hflat.opener (hwraps.subset hmem))
        fun hmem => hflat.closer (hwraps.subset hmem)
    · rw [htext]
      exact hunder'.others x hxp hxi
  obtain ⟨n, v, hv, hvtext, hgroups⟩ := hgrouped
  exact ⟨n, v, hv, hvtext, hgroups.imp id fun hw => ⟨by simp [holders, lt_of_holds hx, hx], hw.2⟩⟩

/-- All groups but brackets are taken apart. -/
theorem Pending.withoutGroups (hwrite : ∀ c ∈ ['(', ')'], write c = []) {p : Pool} (h : Pending write goal p.holders p) :
    Pending write goal [] p.withoutGroups := by
  have hfirst := Pending.foldl hwrite (g := ⟨p, []⟩) h
  exact Pending.foldl hwrite (g := ⟨(p.holders.foldl Growth.reduceGroupsOf ⟨p, []⟩).pool, []⟩) (hfirst.mono (by simp))

end

end FormulaDag.Pool
