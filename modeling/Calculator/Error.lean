import Calculator.Token

/-! # Errors

What can be wrong with an expression, and the sentence each cause is reported with. The structure
is judged first: a literal that denotes no number is reported only for an expression that is well
formed.
-/

namespace Calculator

/-- Why a token list in postfix order is not exactly one expression. -/
inductive StructuralError where
  /-- An operator was reached with fewer than two operands. -/
  | missingOperand (op : Operator) (available : Nat)
  /-- There is nothing to build. -/
  | empty
  /-- Several values are left with no operator between them. -/
  | multipleRoots (count : Nat)
  /-- A parenthesis, which postfix order does not have. -/
  | unexpectedParen (side : Paren)
deriving DecidableEq

/-- The sentence a structural error is reported with. -/
def StructuralError.message : StructuralError → String
  | .missingOperand op available =>
    "operator `" ++ op.text ++ "` needs two operands but only " ++ toString available ++
      " available"
  | .empty => "empty expression"
  | .multipleRoots count =>
    "expression has " ++ toString count ++
      " separate values; an operator is missing between them"
  | .unexpectedParen side =>
    "unexpected `" ++ String.singleton side.symbol ++ "` in postfix sequence"

/-- A literal that denotes no number. -/
structure LiteralError where
  literal : String
deriving DecidableEq

/-- The sentence a bad literal is reported with. -/
def LiteralError.message (error : LiteralError) : String :=
  "invalid numeric literal `" ++ error.literal ++ "`"

/-- Why an expression has no value. -/
inductive ExpressionError where
  | structural (error : StructuralError)
  | literal (error : LiteralError)
deriving DecidableEq

/-- The sentence an error is reported with. -/
def ExpressionError.message : ExpressionError → String
  | .structural error => error.message
  | .literal error => error.message

end Calculator
