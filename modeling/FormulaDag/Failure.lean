import FormulaDag.Leaf.Term
import FormulaDag.Index

/-!
# Failures

Every way in which compiling, loading or evaluating can fail, by cause. The wording of a failure is a function of its cause alone.
-/

namespace FormulaDag

/-- The text as a string. -/
def Text.asString (t : Text) : String := String.ofList t

/-- The name of an index in messages. -/
def Index.name (i : Nat) : String := "#" ++ Nat.repr i

/-- A value as messages show it. -/
def Decimal.shown (x : Float) : String := String.ofList (Decimal.plain x)

/-- What is wrong with the characters of a leaf. -/
inductive LexicalFault where
  | empty
  | malformedNumber (written : Text)
  | strayAt
  | badToken (written : Text)
  | unexpectedCommand (written : Text)
  | unexpectedCharacter (c : Char)
deriving DecidableEq

/-- What is wrong with the order of the terms of a leaf. -/
inductive GrammarFault where
  | unexpected (term : Term)
  | missingClose
  | unexpectedEnd
deriving DecidableEq

/-- Why a node has no value. -/
inductive NodeFault where
  | lexical (fault : LexicalFault)
  | grammatical (fault : GrammarFault)
  | noValue (i : Nat)
  | noSuchIndex
  | noVariable (position : Nat)
deriving DecidableEq

/-- Why an evaluation failed. -/
inductive EvaluationFault where
  | unreducedOperand (slot rule : String) (i : Nat)
  | node (i : Nat) (context : Text) (reason : NodeFault)
  | logarithmBase (function : String)
  | fibonacciPosition (position : Float)
  | rootUndefined (degree value : Float)
  | divisionByZero (numerator : Float)
  | notFinite (rule : String) (inputs : List Float)
  | unknownFunction (name : String)
  | cycle (i : Nat)
deriving DecidableEq

/-- Why an operand of a rule was refused. -/
inductive OperandFault where
  | badArgument (slot : String) (value : Text)
  | missing (slot rule : String)
  | badChoice (group : String) (value : Text)
deriving DecidableEq

/-- Why a function of the user was refused. -/
inductive FunctionFault where
  | noName
  | notLetters (name : Text)
  | reserved (name : Text)
  | alreadyRegistered (name : Text)
deriving DecidableEq

/-- What is wrong with the shape of a source text. -/
inductive ShapeFault where
  | empty
  | bareBackslash
  | unbalanced (closer : Char)
  | emptyGroup (opener closer : Char)
  | unclosed (opener : Char)
deriving DecidableEq

/-- What is wrong with the settings of an evaluation. -/
inductive SettingsFault where
  | unreadable
  | precision (given : Nat)
deriving DecidableEq

/-- Why a source text and its variables were refused. -/
inductive SourceFault where
  | notConstant
  | badVariable (name : Text)
  | unsupported (commands : List Text)
  | unknownSymbol (c : Char)
  | malformed (reason : ShapeFault)
  | badSettings (reason : SettingsFault)
deriving DecidableEq

/-- Why a collection of contexts was refused. -/
inductive ContextsFault where
  | notDefined
  | notObject (found : String)
  | notIndex (key : Text)
  | notText (i : Nat) (found : String)
  | missingRoot
  | dangling (i : Nat) (number : Text)
  | cycle (i : Nat)
  | unreadable
deriving DecidableEq

/-- Why a request of the user was refused. -/
inductive UserFault where
  | notDecimal (name value : Text)
  | missingVariable (name : Text)
  | incompleteDocument (rule : String)
deriving DecidableEq

/-- Any failure of the library. -/
inductive Failure where
  | source (fault : SourceFault)
  | evaluation (fault : EvaluationFault)
  | function (fault : FunctionFault)
  | operand (fault : OperandFault)
  | contexts (fault : ContextsFault)
  | user (fault : UserFault)
deriving DecidableEq

namespace LexicalFault

/-- The wording of a lexical fault. -/
def message : LexicalFault → String
  | empty => "empty context"
  | malformedNumber written => "malformed number '" ++ written.asString ++ "'"
  | strayAt => "stray '@'"
  | badToken written => "bad index token '" ++ written.asString ++ "'"
  | unexpectedCommand written => "unexpected command '" ++ written.asString ++ "'"
  | unexpectedCharacter c => "unexpected character '" ++ c.toString ++ "'"

end LexicalFault

namespace GrammarFault

/-- The wording of a fault in the order of terms. -/
def message : GrammarFault → String
  | unexpected term => "unexpected " ++ String.ofList term.describe
  | missingClose => "missing ')'"
  | unexpectedEnd => "unexpected end of expression"

end GrammarFault

namespace NodeFault

/-- The wording of the reason for which a node has no value. -/
def message : NodeFault → String
  | lexical fault => fault.message
  | grammatical fault => fault.message
  | noValue i => "index " ++ Index.name i ++ " has no value"
  | noSuchIndex => "no such index"
  | noVariable position => "no value for variable #" ++ Nat.repr position

end NodeFault

namespace EvaluationFault

/-- The wording of a failed evaluation. -/
def message : EvaluationFault → String
  | unreducedOperand slot rule i =>
    "Cannot compute operand '" ++ slot ++ "' of " ++ rule ++ " at node " ++ Index.name i ++ ": it is an unreduced context"
  | node i context reason =>
    "Cannot compute node " ++ Index.name i ++ " ('" ++ context.asString ++ "'): " ++ reason.message
  | logarithmBase function =>
    "Logarithm '\\" ++ function ++ "' takes a base only as \\log, and \\log requires one"
  | fibonacciPosition position => "Fibonacci position must be at least 1, got " ++ Decimal.shown position
  | rootUndefined degree value =>
    "Cannot take the root of degree " ++ Decimal.shown degree ++ " of " ++ Decimal.shown value
  | divisionByZero numerator => "Division by zero (numerator " ++ Decimal.shown numerator ++ ")"
  | notFinite rule inputs =>
    rule ++ " is undefined for inputs [" ++
      ", ".intercalate (inputs.map fun x => String.ofList (Decimal.listed x)) ++ "]"
  | unknownFunction name => "Unknown function '" ++ name ++ "'"
  | cycle i => "Cycle detected at node " ++ Index.name i

end EvaluationFault

namespace OperandFault

/-- The wording of a refused operand. -/
def message : OperandFault → String
  | badArgument slot value => "Operand '" ++ slot ++ "' cannot take the value '" ++ value.asString ++ "'"
  | missing slot rule => rule ++ " matched without capturing required operand '" ++ slot ++ "'"
  | badChoice group value => "Operand '" ++ group ++ "' has no choice named '" ++ value.asString ++ "'"

end OperandFault

namespace FunctionFault

/-- The wording of a refused name with the reason. -/
def invalidName (name : Text) (reason : String) : String :=
  "Invalid custom function name '" ++ name.asString ++ "': " ++ reason

/-- The wording of a refused function. -/
def message : FunctionFault → String
  | noName => "A custom function needs a name"
  | notLetters name => invalidName name "only ASCII letters are allowed"
  | reserved name => invalidName name "it is a reserved word"
  | alreadyRegistered name => invalidName name "a function with this name is already registered"

end FunctionFault

namespace ShapeFault

/-- The wording of a fault in the shape of a source text. -/
def message : ShapeFault → String
  | empty => "the expression is empty"
  | bareBackslash => "a backslash must start a command name"
  | unbalanced closer => "unbalanced '" ++ closer.toString ++ "'"
  | emptyGroup opener closer => "empty group '" ++ opener.toString ++ closer.toString ++ "'"
  | unclosed opener => "unclosed '" ++ opener.toString ++ "'"

end ShapeFault

namespace SettingsFault

/-- The wording of a fault in settings. -/
def message : SettingsFault → String
  | unreadable => "the settings cannot be read"
  | precision given => "precision must be within 1..=17, got " ++ Nat.repr given

end SettingsFault

namespace SourceFault

/-- The wording of a refused source. -/
def message : SourceFault → String
  | notConstant => "No variables were declared and the expression is not a constant"
  | badVariable name =>
    "Bad variable '" ++ name.asString ++
      "': variables must be distinct single lowercase letters that are not reserved"
  | unsupported commands => "Unsupported operands: " ++ ", ".intercalate (commands.map String.ofList)
  | unknownSymbol c =>
    "Symbol '" ++ c.toString ++ "' is neither a declared variable nor a supported operand"
  | malformed reason => "Malformed expression: " ++ reason.message
  | badSettings reason => "Invalid configuration: " ++ reason.message

end SourceFault

namespace ContextsFault

/-- The wording of a refused collection of contexts. -/
def message : ContextsFault → String
  | notDefined => "No context map was given"
  | notObject found => "A context map must be an object, not " ++ found
  | notIndex key => "Context map keys must be non-negative integers, not '" ++ key.asString ++ "'"
  | notText i found => "Context " ++ Nat.repr i ++ " must be a string, not " ++ found
  | missingRoot => "Context map has no root (index 0)"
  | dangling i number => "Context " ++ Nat.repr i ++ " references missing index " ++ number.asString
  | cycle i => "Context " ++ Nat.repr i ++ " depends on itself"
  | unreadable => "Malformed context map JSON"

end ContextsFault

namespace UserFault

/-- The wording of a refused request. -/
def message : UserFault → String
  | notDecimal name value => "Only decimals are accepted, not " ++ name.asString ++ "=" ++ value.asString
  | missingVariable name => "Variable '" ++ name.asString ++ "' was declared but not passed"
  | incompleteDocument rule => "Rule '" ++ rule ++ "' needs a display name, an example and a description"

end UserFault

namespace Failure

/-- The wording of a failure. -/
def message : Failure → String
  | source fault => fault.message
  | evaluation fault => fault.message
  | function fault => fault.message
  | operand fault => fault.message
  | contexts fault => fault.message
  | user fault => fault.message

end Failure

end FormulaDag
