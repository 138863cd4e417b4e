import FormulaDag.RuleSet
import FormulaDag.Text.Blank

/-!
# The manual

A table of the constructs that a text may use: one row for each rule, with its columns aligned, and a line with the symbols. A
function of the user has to describe itself.
-/

namespace FormulaDag.Manual

/-- Blanks after the widest entry of a column. -/
def gutter : Nat := 5

/-- Whether no part of a description is blank. -/
def isFilled (d : Document) : Bool :=
  [d.title, d.sample, d.summary].all fun part => !(part.toList.all Text.isBlank)

/-- A text filled up with blanks to a width in characters. -/
def pad (width : Nat) (s : String) : String := s ++ String.ofList (List.replicate (width - s.length) ' ')

/-- The width of a column with the given entries. -/
def columnWidth (entries : List String) : Nat := (entries.map String.length).foldl max 0 + gutter

/-- The rows of a table with three columns. -/
def rows (documents : List Document) : List String :=
  documents.map fun d =>
    pad (columnWidth (documents.map Document.title)) d.title ++
      pad (columnWidth (documents.map Document.sample)) d.sample ++
      pad (columnWidth (documents.map Document.summary)) d.summary

/-- The first function of the user whose description is incomplete. -/
def incomplete? (s : RuleSet) : Option UserFunction := s.functions.find? fun f => !isFilled f.document

/-- The manual of a rule set. -/
def render (s : RuleSet) : Except UserFault String :=
  match incomplete? s with
  | some f => .error (.incompleteDocument (String.ofList f.name))
  | none =>
    .ok ("\n".intercalate (rows (s.rules.map Rule.document)) ++ "\nAlso:\t" ++ ", ".intercalate Symbol.names)

end FormulaDag.Manual
