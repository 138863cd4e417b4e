import FormulaDag.Command

/-!
# Protected letters

A letter of a source text is a variable unless it belongs to a command word or to the name of a function of the user. Command words
run as far as their letters do. Occurrences of a name are taken from left to right without overlap. A mask says for each character
of a text whether it is protected.
-/

namespace FormulaDag.Source

/-- The mask of the command words. The flag tells whether the text before is a command word that may go on. -/
def commandMask (inWord : Bool) : Text → List Bool
  | [] => []
  | c :: rest =>
    if c = '\\' then rest.head?.any Char.isAlpha :: commandMask true rest
    else if inWord && c.isAlpha then true :: commandMask true rest
    else false :: commandMask false rest

/-- The mask of the occurrences of a name. The number counts the characters of an occurrence that are still to come. -/
def nameMask (name : Text) : Nat → Text → List Bool
  | _, [] => []
  | pending + 1, _ :: rest => true :: nameMask name pending rest
  | 0, c :: rest =>
    if name.isPrefixOf (c :: rest) then true :: nameMask name (name.length - 1) rest
    else false :: nameMask name 0 rest

/-- The mask of the command words and of the occurrences of all names. -/
def protection (names : List Text) (t : Text) : List Bool :=
  names.foldl (fun mask name => mask.zipWith (· || ·) (nameMask name 0 t)) (commandMask false t)

/-- The characters of a text, each with a flag that tells whether it is protected. -/
def marked (names : List Text) (t : Text) : List (Char × Bool) := t.zip (protection names t)

/-- The mask of commands is as long as the text. -/
theorem length_commandMask (inWord : Bool) (t : Text) : (commandMask inWord t).length = t.length := by
  induction t generalizing inWord with
  | nil => rfl
  | cons c rest ih =>
    unfold commandMask
    split
    · simp [ih]
    · split <;> simp [ih]

/-- The mask of a name is as long as the text. -/
theorem length_nameMask (name : Text) (pending : Nat) (t : Text) : (nameMask name pending t).length = t.length := by
  induction t generalizing pending with
  | nil => cases pending <;> rfl
  | cons c rest ih =>
    cases pending with
    | zero =>
      unfold nameMask
      split <;> simp [ih]
    | succ pending => simp [nameMask, ih]

/-- The protection of a text is as long as the text. -/
theorem length_protection (names : List Text) (t : Text) : (protection names t).length = t.length := by
  have step : ∀ (names : List Text) (mask : List Bool), mask.length = t.length →
      (names.foldl (fun mask name => mask.zipWith (· || ·) (nameMask name 0 t)) mask).length = t.length := by
    intro names
    induction names with
    | nil => intro mask h; exact h
    | cons name names ih =>
      intro mask h
      exact ih _ (by rw [List.length_zipWith, length_nameMask, h, Nat.min_self])
  exact step names _ (length_commandMask false t)

end FormulaDag.Source
