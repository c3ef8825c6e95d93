import Calculator.Binary64.Text
import Calculator.Evaluation
import Calculator.Text.Blank
import Calculator.Text.Lines

/-! # Batches

A batch evaluates the lines of a text, each without the blank characters around it and on its own.
Blank lines are left out, but counted.
-/

namespace Calculator

namespace Batch

/-- A line that is not blank, and what became of it. Lines are counted from one. -/
structure Entry where
  line : Nat
  expression : String
  result : Except ExpressionError Binary64

/-- The entry of a line, unless the line is blank. -/
def entry? (text : String) (line : Nat) : Option Entry :=
  let expression := Text.trim text
  if expression.isEmpty then none else some ⟨line, expression, evaluate expression⟩

/-- The entries of a text's lines, in order. -/
def ofText (source : String) : List Entry :=
  ((Text.lines source).zipIdx 1).filterMap fun (text, line) => entry? text line

/-- The results of expressions, in order. -/
def evaluateAll (expressions : List String) : List (Except ExpressionError Binary64) :=
  expressions.map evaluate

namespace Entry

/-- Whether the expression has no value. -/
def failed (e : Entry) : Bool :=
  match e.result with
  | .ok _ => false
  | .error _ => true

/-- The line an entry is reported with. -/
def report (e : Entry) : String :=
  toString e.line ++ ": " ++ e.expression ++
    match e.result with
    | .ok value => " = " ++ value.text
    | .error error => " error: " ++ error.message

end Entry

end Batch

end Calculator
