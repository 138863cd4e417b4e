import FormulaDag.Proofs.Pool.Extraction

/-!
# Reduction comes to an end

The bound on the number of indices that are taken from the queue is large enough for the queue to run empty. An index whose text was not
changed by any rule has come to rest, and every other one is in the queue, so in the end all rules rest in all texts.
-/

namespace FormulaDag.Pool

variable {all : List (Nat × Rule)} {e : Nat × Rule} {p q : Pool} {i k : Nat} {created : Bool} {a m b : Line} {s s' : Progress}

theorem text_of_writes_resolve {u : Line} (h : p.Writes (p.resolve i) u) : p.text i = u.text := by
  rw [← h.text, text, text, resolve_of_holds h.held]

/-- An extraction leaves what stands around the occurrence, with a reference in its place. -/
theorem Extracted.text_eq (h : Extracted p q i k created a m b) : q.text i = Line.text (a ++ .ref k :: b) := text_of_writes_resolve h.target

/-- An extraction takes plain characters out of the text. -/
theorem Extracted.plainCount_lt (h : Extracted p q i k created a m b) (hs : p.Writes i (a ++ (m ++ b))) (hm : 0 < m.charCount) :
    Token.plainCount (q.text i) < Token.plainCount (p.text i) := by
  rw [h.text_eq, h.target.within.plainCount_eq, hs.text, hs.within.plainCount_eq]
  simp only [Line.charCount_append, Line.charCount_ref]
  omega

/-- An occurrence that is not the whole text of a cell is taken out of it. -/
inductive Extracts (i : Nat) (e : Nat × Rule) (s s' : Progress) : Prop where
  | mk {k : Nat} {created : Bool} {a m b : Line} {l : Located} (line : s.pool.Writes i (a ++ (m ++ b))) (divides : e.2.Divides e.1 a m b l)
      (part : a ≠ [] ∨ b ≠ []) (char : 0 < m.charCount) (extracted : Extracted s.pool s'.pool i k created a m b)
      (news : s'.created = if created then s.created ++ [k] else s.created) (changed : s'.changed = true)

/-- The pool behind an extraction is written. -/
theorem Extracts.written (h : Extracts i e s s') : s'.pool.Written := by
  obtain ⟨-, -, -, -, hextracted, -, -⟩ := h
  exact hextracted.written

/-- An extraction leaves the index a text with fewer plain characters. -/
theorem Extracts.plainCount_lt (h : Extracts i e s s') : Token.plainCount (s'.pool.text i) < Token.plainCount (s.pool.text i) := by
  obtain ⟨hu, -, -, hchar, hextracted, -, -⟩ := h
  exact hextracted.plainCount_lt hu hchar

section
variable {r : RuleSet} (he : e.2 ∈ r.rules)
include he

/-- What a rule finds within a written text is extracted. -/
theorem Written.extracts (h : s.pool.Written) (hi : s.pool.holds i = true) {l : Located} (hl : e.2.locate e.1 (s.pool.text i) = .ok (some l))
    (hpart : l.occurrence.isWhole (s.pool.text i) = false) : Extracts i e s (s.extract i l) := by
  have haligned := r.isAligned _ he
  obtain ⟨u, hu⟩ := h.written i hi
  rw [hu.text] at hl hpart
  obtain ⟨a, m, b, rfl, hdivides, hm⟩ := Rule.exists_divides haligned (r.separate _ he) hu.within hl
  have hne : a ≠ [] ∨ b ≠ [] := by
    by_contra hnil
    rw [not_or, not_not, not_not] at hnil
    rw [(hdivides.isWhole_iff haligned).2 hnil] at hpart
    cases hpart
  have hchar : 0 < m.charCount := by
    obtain ⟨behind, hit, hsearch, ho, -⟩ := Rule.locate_eq_ok hl
    obtain ⟨_, v, -, -, hfirst, -⟩ := Rule.search_eq_some hsearch
    exact r.charCount_pos he (List.mem_of_mem_head? hfirst) (hdivides.taken.trans (Rule.occurrence_eq_ok ho).2.2.2.1)
  have heq : (s.extract i l).pool = (s.pool.intern m.text).pool.setText i (Line.text (a ++ .ref (s.pool.intern m.text).index :: b)) := by
    rw [Progress.extract, hdivides.taken, ← hdivides.before, ← hdivides.after]
    simp [Mark.text]
  refine .mk hu hdivides hne hchar (heq ▸ h.extracted hu hchar hne) ?_ rfl
  rw [Progress.extract, ← hdivides.taken]

end

/-- Extractions of one rule, one after the other, until it rests or the cell is left without a text of its own. -/
inductive Exhausts (i : Nat) (e : Nat × Rule) : Progress → Progress → Prop where
  | rest {s : Progress} (h : s.pool.holds i = true → e.2.rests e.1 (s.pool.text i) = true) : Exhausts i e s s
  | extract {s s' s'' : Progress} (h : Extracts i e s s') (hrest : Exhausts i e s' s'') : Exhausts i e s s''

/-- One turn on a text with a part of it found is an extraction and the turns after it. -/
theorem exhaust_of_part {turns : Nat} {l : Located} (hi : s.pool.holds i = true) (hl : e.2.locate e.1 (s.pool.text i) = .ok (some l))
    (hpart : l.occurrence.isWhole (s.pool.text i) = false) :
    exhaust i e.1 e.2 (turns + 1) s = exhaust i e.1 e.2 turns (s.extract i l) := by
  rw [exhaust, if_pos hi, hl]
  simp only [hpart]
  rfl

/-- One turn on a text in which the rule rests ends the loop. -/
theorem exhaust_of_rests {turns : Nat} (hrests : s.pool.holds i = true → e.2.rests e.1 (s.pool.text i) = true) :
    exhaust i e.1 e.2 (turns + 1) s = .ok s := by
  rw [exhaust]
  split
  · rename_i hi
    have hrests := hrests hi
    rw [Rule.rests] at hrests
    split at hrests
    · rename_i hl
      rw [hl]
    · rename_i l hl
      rw [hl]
      simp only [hrests, if_true]
    · cases hrests
  · rfl

/-- Where the loop of a rule ends without an error, the rule had an answer for the text. -/
theorem exists_located_of_exhaust {turns : Nat} (hok : exhaust i e.1 e.2 (turns + 1) s = .ok s') (hi : s.pool.holds i = true) :
    ∃ found, e.2.locate e.1 (s.pool.text i) = .ok found := by
  rw [exhaust, if_pos hi] at hok
  split at hok
  · cases hok
  · exact ⟨_, by assumption⟩
  · exact ⟨_, by assumption⟩

/-- The loop of a rule keeps a pool written. -/
theorem Exhausts.written (h : Exhausts i e s s') (hs : s.pool.Written) : s'.pool.Written := by
  induction h with
  | rest _ => exact hs
  | extract hextracts _ ih => exact ih hextracts.written

section
variable {r : RuleSet} (he : e.2 ∈ r.rules)
include he

/-- A rule that does not fail rests or takes something out. -/
theorem Written.rests_or_extracts (h : s.pool.Written)
    (hfound : s.pool.holds i = true → ∃ found, e.2.locate e.1 (s.pool.text i) = .ok found) :
    (s.pool.holds i = true → e.2.rests e.1 (s.pool.text i) = true) ∨
      ∃ l, s.pool.holds i = true ∧ e.2.locate e.1 (s.pool.text i) = .ok (some l) ∧ l.occurrence.isWhole (s.pool.text i) = false ∧
        Extracts i e s (s.extract i l) := by
  by_cases hi : s.pool.holds i = true
  · obtain ⟨found, hl⟩ := hfound hi
    cases found with
    | none => exact .inl fun _ => by rw [Rule.rests, hl]
    | some l =>
      cases hpart : l.occurrence.isWhole (s.pool.text i) with
      | true => exact .inl fun _ => by rw [Rule.rests, hl]; exact hpart
      | false => exact .inr ⟨l, hi, hl, hpart, h.extracts he hi hl hpart⟩
  · exact .inl fun hheld => absurd hheld hi

/-- The number of turns suffices. -/
theorem Written.exhausts {turns : Nat} (h : s.pool.Written) (hturns : Token.plainCount (s.pool.text i) < turns)
    (hok : exhaust i e.1 e.2 turns s = .ok s') : Exhausts i e s s' := by
  induction turns generalizing s with
  | zero => exact absurd hturns (Nat.not_lt_zero _)
  | succ turns ih =>
    rcases h.rests_or_extracts he (exists_located_of_exhaust hok) with hrests | ⟨l, hi, hl, hpart, hextracts⟩
    · rw [exhaust_of_rests hrests] at hok
      exact Except.ok.inj hok ▸ .rest hrests
    · rw [exhaust_of_part hi hl hpart] at hok
      exact .extract hextracts (ih hextracts.written (by have := hextracts.plainCount_lt; omega) hok)

end

/-- What has happened since the rules were first tried on a cell. -/
structure Traced (p : Pool) (i : Nat) (tried : List (Nat × Rule)) (s : Progress) : Prop where
  written : s.pool.Written
  others : ∀ x u, x ≠ i → s.pool.Writes x u → p.Writes x u ∨ x ∈ s.created
  same : s.changed = false → s.pool = p ∧ s.created = [] ∧
    (p.holds i = true → ∀ e ∈ tried, e.2.rests e.1 (p.text i) = true)
  spent : s.created.length + s.pool.work ≤ p.work
  used : s.changed = true → s.pool.work < p.work

namespace Traced
variable {tried : List (Nat × Rule)}

/-- Before the first rule an index has been traced with none. -/
theorem start (h : p.Written) (i : Nat) : Traced p i [] ⟨p, [], false⟩ :=
  ⟨h, fun _ _ _ hu => .inl hu, fun _ => ⟨rfl, rfl, by simp⟩, by simp, by rintro ⟨⟩⟩

/-- An extraction keeps what is known of the rules tried before. -/
theorem extracts (h : Traced p i tried s) (hs : Extracts i e s s') : Traced p i tried s' := by
  obtain ⟨hu, -, -, -, hextracted, hnews, hchanged⟩ := hs
  have hwork := hextracted.work
  have hspent := h.spent
  refine ⟨hextracted.written, fun x u hxi hu => ?_, fun hsame => ?_, ?_, fun _ => by omega⟩
  · rw [hnews]
    rcases hextracted.before x u hu hxi with hu | ⟨rfl, -, rfl⟩
    · refine (h.others x u hxi hu).imp_right fun hmem => ?_
      split
      · exact List.mem_append_left _ hmem
      · exact hmem
    · exact .inr (by simp)
  · rw [hchanged] at hsame
    cases hsame
  · rw [hnews]
    split
    · rw [List.length_append, List.length_singleton]
      omega
    · omega

/-- The loop of one more rule adds it to those that were tried. -/
theorem exhausts (h : Traced p i tried s) (hs : Exhausts i e s s') : Traced p i (tried ++ [e]) s' := by
  induction hs with
  | rest hrest =>
    refine ⟨h.written, h.others, fun hsame => ?_, h.spent, h.used⟩
    obtain ⟨hpool, hcreated, htried⟩ := h.same hsame
    refine ⟨hpool, hcreated, fun hi d hd => ?_⟩
    rcases List.mem_append.1 hd with hd | hd
    · exact htried hi d hd
    · rw [List.mem_singleton.1 hd, ← hpool]
      exact hrest (hpool ▸ hi)
  | extract hs _ ih => exact ih (h.extracts hs)

/-- The loops of further rules add them all. -/
theorem foldlM {r : RuleSet} {rest : List (Nat × Rule)} (hrest : ∀ e ∈ rest, e.2 ∈ r.rules) (h : Traced p i tried s)
    (hok : rest.foldlM (fun s (id, r) => exhaust i id r ((s.pool.text i).length + 1) s) s = .ok s') : Traced p i (tried ++ rest) s' := by
  induction rest generalizing tried s with
  | nil =>
    rw [List.foldlM_nil] at hok
    rw [List.append_nil]
    exact Except.ok.inj hok ▸ h
  | cons e rest ih =>
    rw [List.foldlM_cons] at hok
    obtain ⟨s₁, hs₁, hok⟩ := bind_eq_ok.1 hok
    have hturns := Nat.lt_succ_of_le (Token.plainCount_le_length (s.pool.text i))
    have hexhausts := h.written.exhausts (hrest e (by simp)) hturns hs₁
    rw [List.append_cons]
    exact ih (fun d hd => hrest d (by simp [hd])) (h.exhausts hexhausts) hok

end Traced

/-- All rules rest in the texts of cells that are not in the queue. -/
structure Settled (all : List (Nat × Rule)) (queue : List Nat) (p : Pool) : Prop where
  written : p.Written
  rests : ∀ x, p.holds x = true → x ∉ queue → ∀ e ∈ all, e.2.rests e.1 (p.text x) = true

/-- The indices that wait after the rules were tried on the one in front. -/
def Progress.waiting (s : Progress) (i : Nat) (queue : List Nat) : List Nat :=
  queue ++ s.created ++ if s.changed && s.pool.holds i then [i] else []

section
variable {r : RuleSet} {queue : List Nat}

/-- The loops of all rules trace an index with all of them. -/
theorem Written.traced (h : p.Written) (hok : reduceIndex r.numbered p i = .ok s) : Traced p i r.numbered s :=
  (Traced.start h i).foldlM (fun _ he => RuleSet.mem_of_numbered he) hok

/-- Behind the loops of all rules on the first index of the queue, the pool is settled up to the indices that wait then. -/
theorem Traced.settled (h : Traced p i all s) (hp : Settled all (i :: queue) p) : Settled all (s.waiting i queue) s.pool where
  written := h.written
  rests x hx hmem d hd := by
    rw [Progress.waiting] at hmem
    simp only [List.mem_append, not_or] at hmem
    by_cases hxi : x = i
    · subst hxi
      have hsame : s.changed = false := by
        by_contra hchanged
        simp [hx, hchanged] at hmem
      obtain ⟨hpool, -, hrests⟩ := h.same hsame
      rw [hpool] at hx ⊢
      exact hrests hx d hd
    · obtain ⟨u, hu⟩ := h.written.written x hx
      rcases h.others x u hxi hu with hpu | hcreated
      · rw [hu.text, ← hpu.text]
        exact hp.rests x hpu.held (by simp [hxi, hmem.1.1]) d hd
      · exact absurd hcreated hmem.1.2

/-- What is left in the queue and the work that is left become less with every index that is taken from the queue. -/
theorem Traced.length_waiting (h : Traced p i all s) : (s.waiting i queue).length + 2 * s.pool.work < (i :: queue).length + 2 * p.work := by
  have hspent := h.spent
  rw [Progress.waiting, List.length_append, List.length_append, List.length_cons]
  cases hchanged : s.changed with
  | false =>
    obtain ⟨hpool, hcreated, -⟩ := h.same hchanged
    rw [hpool, hcreated]
    simp
  | true =>
    have hused := h.used hchanged
    have hlast : (if true && s.pool.holds i then [i] else []).length ≤ 1 := by
      split <;> simp
    omega

/-- One turn of the queue reduces its first index and queues what waits behind it. -/
theorem reduceQueue_cons {rules : List (Nat × Rule)} {turns : Nat} :
    reduceQueue rules (turns + 1) p (i :: queue) = reduceIndex rules p i >>= fun s => reduceQueue rules turns s.pool (s.waiting i queue) := by
  rw [reduceQueue]
  cases reduceIndex rules p i <;> rfl

/-- A queue that is worked off with turns enough leaves a pool in which nothing waits. -/
theorem Settled.reduceQueue {turns : Nat} (h : Settled r.numbered queue p) (hturns : queue.length + 2 * p.work < turns)
    (hok : Pool.reduceQueue r.numbered turns p queue = .ok q) : Settled r.numbered [] q := by
  induction turns generalizing p queue with
  | zero => exact absurd hturns (Nat.not_lt_zero _)
  | succ turns ih =>
    cases queue with
    | nil =>
      rw [Pool.reduceQueue] at hok
      · exact Except.ok.inj hok ▸ h
      · exact Nat.succ_ne_zero turns
    | cons i queue =>
      rw [reduceQueue_cons] at hok
      obtain ⟨s, hs, hok⟩ := bind_eq_ok.1 hok
      have htraced := h.written.traced hs
      have hlength : (s.waiting i queue).length + 2 * s.pool.work < (i :: queue).length + 2 * p.work := htraced.length_waiting
      exact ih (htraced.settled h) (by omega) hok

/-- After reduction all rules rest in all texts. -/
theorem Written.reduce (h : p.Written) (hok : Pool.reduce r p = .ok q) : Settled r.numbered [] q := by
  have hstart : Settled r.numbered p.holders p := ⟨h, fun x hx hmem => absurd (mem_holders.2 hx) hmem⟩
  have hbound := p.work_le_reductionBound
  exact hstart.reduceQueue (by omega) hok

end

end FormulaDag.Pool
