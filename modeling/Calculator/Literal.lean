import Calculator.Decimal
import Calculator.Error

/-! # The numbers that literals denote

A literal has the value of the binary64 number nearest to the decimal it is written as; any other
text is an error that carries the text.
-/

namespace Calculator

/-- The value of a literal. -/
def Literal.value (text : String) : Except LiteralError Binary64 :=
  match Decimal.read? text with
  | some decimal => .ok decimal.toBinary64
  | none => .error ⟨text⟩

end Calculator
