import FormulaDag.Rule.Basic

/-!
# Functions of the user

A function of one argument that the user adds, written `name@/i/@` or `\name@/i/@` once its argument has become an index. Its name
is a nonempty run of ASCII letters and no reserved word; the type keeps that.
-/

namespace FormulaDag

/-- A function of one argument with a name and a description. -/
structure UserFunction where
  name : Text
  document : Document
  apply : Float → Except EvaluationFault Float
  nonempty : name ≠ []
  letters : name.all Char.isAlpha = true
  notReserved : Command.isReserved name = false

namespace UserFunction

/-- A function with the given name, unless the name is refused. -/
def create (name : Text) (document : Document) (apply : Float → Except EvaluationFault Float) :
    Except FunctionFault UserFunction :=
  if nonempty : name = [] then .error .noName
  else if letters : name.all Char.isAlpha = true then
    if reserved : Command.isReserved name = true then .error (.reserved name)
    else .ok ⟨name, document, apply, nonempty, letters, by simpa using reserved⟩
  else .error (.notLetters name)

/-- The Fibonacci numbers, under the name `fib`. -/
def fibonacci : UserFunction where
  name := "fib".toList
  document := ⟨"Fibonacci", "fib(n)", "n-th Fibonacci number, counting from fib(1) = 1"⟩
  apply := fun x =>
    match Elementary.fibonacci? x with
    | some y => .ok y
    | none => .error (.fibonacciPosition x)
  nonempty := by decide
  letters := by decide
  notReserved := by decide

/-- The rule that recognises calls of a function: anywhere except inside of a command word. -/
def rule (f : UserFunction) : Rule where
  name := String.ofList f.name
  pattern := .optional (.word "\\") ++ .literal f.name ++ .named "parameter" .token
  admits := fun behind _ => !Command.isInside behind
  slots := [{ name := "parameter" }]
  document := f.document
  apply := fun a => f.apply (a.value 0)

end UserFunction

end FormulaDag
