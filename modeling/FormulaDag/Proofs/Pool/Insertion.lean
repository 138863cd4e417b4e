import FormulaDag.Proofs.Contexts.Numbering
import FormulaDag.Proofs.Pool.Absence
import FormulaDag.Proofs.Pool.Binding
import FormulaDag.Proofs.Rule.Insertion

/-!
# A further function in reduction and binding

A function whose name is in no text of a pool occurs nowhere. So a pool is reduced and its variables are bound in the same way when that
function is registered besides others, at whatever place in their order. The rules behind it have other numbers then, but reduction does not
look at numbers.
-/

namespace FormulaDag

/-- What follows a computation matters on its results only. -/
theorem bind_congr_ok {α β ε : Type} {x : Except ε α} {f g : α → Except ε β} (h : ∀ a, x = .ok a → f a = g a) : x >>= f = x >>= g := by
  cases x with
  | error fault => rfl
  | ok a => exact h a rfl

/-- What the results are mapped by matters on them only. -/
theorem map_congr_ok {α β ε : Type} {x : Except ε α} {f g : α → β} (h : ∀ a, x = .ok a → f a = g a) : x.map f = x.map g := by
  cases x with
  | error fault => rfl
  | ok a => exact congrArg Except.ok (h a rfl)

/-- Folds whose steps are the same as long as an invariant holds. -/
theorem foldl_congr {α β : Type} {f g : β → α → β} {P : β → Prop} (h : ∀ b a, P b → f b a = g b a) (hstep : ∀ b a, P b → P (g b a))
    {b : β} (hb : P b) {l : List α} : l.foldl f b = l.foldl g b := by
  induction l generalizing b with
  | nil => rfl
  | cons a l ih => rw [List.foldl_cons, List.foldl_cons, h b a hb, ih (hstep b a hb)]

namespace Pool

/-- Reduction by a rule does not look at its number. -/
theorem exhaust_number (i id id' : Nat) (r : Rule) (turns : Nat) (s : Progress) : exhaust i id' r turns s = exhaust i id r turns s := by
  induction turns generalizing s with
  | zero => rfl
  | succ turns ih =>
    have hlocate : r.locate id' (s.pool.text i) = (r.locate id (s.pool.text i)).map (Option.map (Located.renumber fun _ => id')) :=
      r.locate_renumber (fun _ => id') id (s.pool.text i)
    rw [exhaust, exhaust, hlocate]
    cases r.locate id (s.pool.text i) with
    | error fault => rfl
    | ok found =>
      cases found with
      | none => rfl
      | some l =>
        change (if s.pool.holds i then
          if l.occurrence.isWhole (s.pool.text i) then .ok s else exhaust i id' r turns (s.extract i l) else .ok s) = _
        rw [ih]

/-- Reduction of an index by numbered rules is reduction by the rules. -/
theorem reduceIndex_numbered (s : RuleSet) (p : Pool) (i : Nat) : reduceIndex s.numbered p i =
    s.rules.foldlM (fun s r => exhaust i 0 r ((s.pool.text i).length + 1) s) ⟨p, [], false⟩ := by
  have hrules : s.rules = s.numbered.map Prod.snd := by
    rw [RuleSet.numbered, List.map_map]
    exact (List.zipIdx_map_fst 0 s.rules).symm
  rw [hrules, List.foldlM_map, reduceIndex]
  simp only [exhaust_number i 0]

section
variable {word : Text} (hword : word.IsName)
include hword

/-- An extraction keeps a name absent. -/
theorem every_extract {s : Progress} (hs : s.pool.Every word.Lacks) {i id : Nat} {r : Rule} (hr : r.pattern.IsAligned) {l : Located}
    (hl : r.locate id (s.pool.text i) = .ok (some l)) : (s.extract i l).pool.Every word.Lacks := by
  have hparts := Rule.locate_parts hr hl
  have htext := hs.text hword.lacks_nil i
  rw [hparts] at htext
  have hoccurrence : word.Lacks l.occurrence.text := htext.part ⟨l.before, l.after, rfl⟩
  exact (hs.intern hoccurrence).setText (hword.lacks_around (htext.part ⟨[], l.occurrence.text ++ l.after, by simp⟩)
    (hword.seals_token _) (htext.part ⟨l.before ++ l.occurrence.text, [], by simp⟩)) i

/-- The loop of a rule keeps a name absent. -/
theorem every_exhaust {i id : Nat} {r : Rule} (hr : r.pattern.IsAligned) {turns : Nat} {s s' : Progress} (hs : s.pool.Every word.Lacks)
    (h : exhaust i id r turns s = .ok s') : s'.pool.Every word.Lacks := by
  induction turns generalizing s with
  | zero => exact Except.ok.inj h ▸ hs
  | succ turns ih =>
    rw [exhaust] at h
    split at h
    · split at h
      · cases h
      · exact Except.ok.inj h ▸ hs
      · rename_i l hl
        split at h
        · exact Except.ok.inj h ▸ hs
        · exact ih (every_extract hword hs hr hl) h
    · exact Except.ok.inj h ▸ hs

/-- The loops of several rules keep a name absent. -/
theorem every_foldlM {i : Nat} {rules : List Rule} (hrules : ∀ r ∈ rules, r.pattern.IsAligned) {s s' : Progress}
    (hs : s.pool.Every word.Lacks)
    (h : rules.foldlM (fun s r => exhaust i 0 r ((s.pool.text i).length + 1) s) s = .ok s') : s'.pool.Every word.Lacks :=
  foldlM_invariant (P := fun s => s.pool.Every word.Lacks) (fun _ hr _ _ hs h => every_exhaust hword (hrules _ hr) hs h) hs h

/-- The loops of all rules keep a name absent. -/
theorem every_reduceIndex {s : RuleSet} {p : Pool} (hp : p.Every word.Lacks) {i : Nat} {reached : Progress}
    (h : reduceIndex s.numbered p i = .ok reached) : reached.pool.Every word.Lacks := by
  rw [reduceIndex_numbered] at h
  exact every_foldlM hword s.isAligned hp h

/-- The queue keeps a name absent. -/
theorem every_reduceQueue {s : RuleSet} {turns : Nat} {p p' : Pool} (hp : p.Every word.Lacks) {queue : List Nat}
    (h : reduceQueue s.numbered turns p queue = .ok p') : p'.Every word.Lacks := by
  induction turns generalizing p queue with
  | zero => exact Except.ok.inj h ▸ hp
  | succ turns ih =>
    cases queue with
    | nil => exact Except.ok.inj h ▸ hp
    | cons i queue =>
      rw [reduceQueue] at h
      split at h
      · cases h
      · rename_i hreached
        exact ih (every_reduceIndex hword hp hreached) h

/-- No name comes up that the source text lacks. -/
theorem every_ofSource {s : RuleSet} {source : Text} (h : word.Lacks source) {p : Pool} (hp : ofSource s source = .ok p) :
    p.Every word.Lacks := by
  obtain ⟨reduced, hreduced, rfl⟩ := map_eq_ok.1 hp
  exact every_canonical hword (every_reduceQueue hword (every_ofGroups hword h) hreduced)

end

/-- The rule of a function whose name does not occur finds nothing to extract. -/
theorem exhaust_of_lacks {f : UserFunction} {p : Progress} (hp : p.pool.Every f.name.Lacks) (i id turns : Nat) :
    exhaust i id f.rule turns p = .ok p := by
  cases turns with
  | zero => rfl
  | succ turns =>
    rw [exhaust, f.locate_of_lacks id (hp.text f.isName.lacks_nil i)]
    split <;> rfl

section
variable {s s' : RuleSet} {f : UserFunction} {before after : List UserFunction} (hs : s.functions = before ++ after)
  (hs' : s'.functions = before ++ f :: after)
include hs hs'

/-- A function with an absent name does not change the loops on an index. -/
theorem reduceIndex_insert {p : Pool} (hp : p.Every f.name.Lacks) (i : Nat) : reduceIndex s'.numbered p i = reduceIndex s.numbered p i := by
  obtain ⟨first, last, hrules, hrules', -⟩ := RuleSet.rules_insert hs hs'
  rw [reduceIndex_numbered, reduceIndex_numbered, hrules, hrules', List.foldlM_append, List.foldlM_append]
  refine bind_congr_ok fun reached hreached => ?_
  have hfirst : ∀ r ∈ first, r.pattern.IsAligned := fun r hr => s.isAligned r (by rw [hrules]; exact List.mem_append_left _ hr)
  rw [List.foldlM_cons, exhaust_of_lacks (every_foldlM f.isName hfirst hp hreached)]
  rfl

/-- A function with an absent name does not change the queue. -/
theorem reduceQueue_insert (turns : Nat) {p : Pool} (hp : p.Every f.name.Lacks) (queue : List Nat) :
    reduceQueue s'.numbered turns p queue = reduceQueue s.numbered turns p queue := by
  induction turns generalizing p queue with
  | zero => rfl
  | succ turns ih =>
    cases queue with
    | nil => rfl
    | cons i queue =>
      rw [reduceQueue, reduceQueue, reduceIndex_insert hs hs' hp]
      cases hreached : reduceIndex s.numbered p i with
      | error fault => rfl
      | ok reached => exact ih (every_reduceIndex f.isName hp hreached) _

/-- A source text is taken apart in the same way. -/
theorem ofSource_insert {source : Text} (h : f.name.Lacks source) : ofSource s' source = ofSource s source := by
  rw [ofSource, ofSource, reduce, reduce, reduceQueue_insert hs hs' _ (every_ofGroups f.isName h)]

end

/-! ## Variables -/

section
variable {word : Text} (hword : word.IsName)
include hword

theorem lacks_eulerNumber : word.Lacks Symbol.eulerNumber := by
  refine hword.lacks_of_no_letter fun c hc => ?_
  rcases isDigit_of_mem_eulerNumber hc with hdigit | rfl
  · exact Text.not_isAlpha_of_isDigit hdigit
  · decide

/-- The letter of a variable is no name, and a fixed number has no letters. -/
theorem lacks_letterText {letter : Char} (h : word ≠ [letter]) : word.Lacks (letterText letter) := by
  rw [letterText]
  split
  · exact lacks_eulerNumber hword
  · intro hpart
    rcases (List.infix_singleton_iff _ _).1 hpart with hnil | hletter
    · exact hword.nonempty hnil
    · exact h hletter

/-- The index of a letter keeps other names absent. -/
theorem every_letterIndex {p : Pool} (hp : p.Every word.Lacks) {letter : Char} (h : word ≠ [letter]) :
    (p.letterIndex letter).1.Every word.Lacks := by
  rw [letterIndex]
  split
  · split
    · exact hp.setText (lacks_eulerNumber hword) _
    · exact hp
  · exact hp.intern (lacks_letterText hword h)

/-- Tokens in the place of some characters bring up no name, whatever stands before. -/
theorem lacks_append_replace (letter : Char) (i : Nat) {x : Text} {l : List (Char × Bool)} (h : word.Lacks (x ++ l.map Prod.fst)) :
    word.Lacks (x ++ l.flatMap fun (c, isProtected) => if c = letter && !isProtected then Index.token i else [c]) := by
  induction l generalizing x with
  | nil => exact h
  | cons e rest ih =>
    obtain ⟨c, isProtected⟩ := e
    rw [List.flatMap_cons]
    simp only
    split
    · rw [← List.append_assoc]
      have hrest : word.Lacks ([] ++ rest.map Prod.fst) := h.part ⟨x ++ [c], [], by simp⟩
      exact hword.lacks_around (h.part ⟨[], c :: rest.map Prod.fst, by simp⟩) (hword.seals_token i) (by simpa using ih hrest)
    · have hnext : word.Lacks ((x ++ [c]) ++ rest.map Prod.fst) := by simpa using h
      simpa using ih hnext

/-- Replacing a letter keeps a name absent. -/
theorem lacks_replaceLetter (names : List Text) (letter : Char) (i : Nat) {t : Text} (h : word.Lacks t) :
    word.Lacks (replaceLetter names letter (Index.token i) t) := by
  have hmarked : (Source.marked names t).map Prod.fst = t := List.map_fst_zip (Nat.le_of_eq (Source.length_protection names t).symm)
  exact lacks_append_replace hword letter i (x := []) (by rwa [hmarked])

/-- Binding a letter in a text keeps a name absent. -/
theorem every_bindIn (names : List Text) (letter : Char) (i : Nat) {p : Pool} (hp : p.Every word.Lacks) (other : Nat) :
    (bindIn names letter i p other).Every word.Lacks := by
  rw [bindIn]
  split
  · exact hp
  · split
    · exact hp
    · exact hp.setText (lacks_replaceLetter hword names letter i (hp.text hword.lacks_nil other)) other

/-- Binding a letter keeps other names absent. -/
theorem every_bindLetter (names : List Text) {p : Pool} (hp : p.Every word.Lacks) {letter : Char} (h : word ≠ [letter]) :
    (bindLetter names p letter).Every word.Lacks :=
  List.foldlRecOn _ _ (every_letterIndex hword hp h) fun _ hq other _ => every_bindIn hword names letter _ hq other

/-- Binding letters keeps other names absent. -/
theorem every_bindLetters (names : List Text) {letters : List Char} {p : Pool} (hp : p.Every word.Lacks)
    (h : ∀ letter ∈ letters, word ≠ [letter]) : (bindLetters names letters p).Every word.Lacks :=
  List.foldlRecOn _ _ hp fun _ hq letter hletter => every_bindLetter hword names hq (h letter hletter)

end

section
variable {s s' : RuleSet} {f : UserFunction} {before after : List UserFunction} (hs : s.functions = before ++ after)
  (hs' : s'.functions = before ++ f :: after)
include hs hs'

/-- A function with an absent name does not change where a letter is bound in a text. -/
theorem bindIn_insert (letter : Char) (i : Nat) {p : Pool} (hp : p.Every f.name.Lacks) (other : Nat) :
    bindIn s'.functionNames letter i p other = bindIn s.functionNames letter i p other := by
  have hmarked := Source.marked_functionNames hs hs' (hp.text f.isName.lacks_nil other)
  rw [bindIn, bindIn, replaceLetter, replaceLetter, hmarked]

/-- A function with an absent name does not change the binding of a letter. -/
theorem bindLetter_insert {p : Pool} (hp : p.Every f.name.Lacks) {letter : Char} (h : f.name ≠ [letter]) :
    bindLetter s'.functionNames p letter = bindLetter s.functionNames p letter :=
  foldl_congr (P := Every f.name.Lacks) (fun _ other hq => bindIn_insert hs hs' letter _ hq other)
    (fun _ other hq => every_bindIn f.isName _ letter _ hq other) (every_letterIndex f.isName hp h)

/-- A function with an absent name does not change the binding of letters. -/
theorem bindLetters_insert {letters : List Char} (h : ∀ letter ∈ letters, f.name ≠ [letter]) {p : Pool} (hp : p.Every f.name.Lacks) :
    bindLetters s'.functionNames letters p = bindLetters s.functionNames letters p := by
  induction letters generalizing p with
  | nil => rfl
  | cons letter rest ih =>
    rw [bindLetters, bindLetters, List.foldl_cons, List.foldl_cons, bindLetter_insert hs hs' hp (h letter (by simp))]
    exact ih (fun c hc => h c (List.mem_cons_of_mem _ hc)) (every_bindLetter f.isName _ hp (h letter (by simp)))

end

/-- The texts of frozen contexts lack what the texts of the pool lack. -/
theorem lacks_of_mem_freeze {word : Text} (hword : word.IsName) {p : Pool} (hp : p.Every word.Lacks) {t : Text} (ht : t ∈ p.freeze.texts) :
    word.Lacks t := by
  rw [freeze, toContexts, Contexts.texts_ofTexts] at ht
  obtain ⟨i, -, rfl⟩ := List.mem_map.1 ht
  exact hword.lacks_mapIndices _ ((every_canonical hword hp).text hword.lacks_nil i)

end Pool

namespace Contexts

section
variable {s s' : RuleSet} {f : UserFunction} {before after : List UserFunction} (hs : s.functions = before ++ after)
  (hs' : s'.functions = before ++ f :: after)
include hs hs'

/-- A well-formed text has the same contexts, and they lack the name too. -/
theorem ofWellFormed_insert {letters : List Char} (hletters : ∀ letter ∈ letters, f.name ≠ [letter]) {t : Text} (h : f.name.Lacks t) :
    ofWellFormed s' letters t = ofWellFormed s letters t := by
  rw [ofWellFormed, ofWellFormed, Pool.ofSource_insert hs hs' h]
  refine map_congr_ok fun p hp => ?_
  rw [Pool.bindLetters_insert hs hs' hletters (Pool.every_ofSource f.isName h hp)]

/-- A source text that lacks the name, with and without its white space, has the same contexts. -/
theorem ofSource_insert {letters : List Char} (hletters : ∀ letter ∈ letters, f.name ≠ [letter]) {source : Text} (h : f.name.Lacks source)
    (hstripped : f.name.Lacks (Source.stripBlanks s.functionNames source)) : ofSource s' letters source = ofSource s letters source := by
  rw [ofSource, ofSource, Source.stripBlanks_functionNames hs hs' h, Source.fault?_insert hs hs' hstripped,
    ofWellFormed_insert hs hs' hletters hstripped]

end

/-- A name that is absent from the source is absent from its contexts. -/
theorem lacks_of_mem_ofSource {s : RuleSet} {word : Text} (hword : word.IsName) {letters : List Char}
    (hletters : ∀ letter ∈ letters, word ≠ [letter]) {source : Text} (h : word.Lacks (Source.stripBlanks s.functionNames source))
    {c : Contexts} (hc : ofSource s letters source = .ok c) {t : Text} (ht : t ∈ c.texts) : word.Lacks t := by
  rw [ofSource] at hc
  split at hc
  · cases hc
  · obtain ⟨p, hp, rfl⟩ := map_eq_ok.1 (mapError_eq_ok.1 hc)
    exact Pool.lacks_of_mem_freeze hword (Pool.every_bindLetters hword _ (Pool.every_ofSource hword h hp) hletters) ht

end Contexts

end FormulaDag
