import Calculator.Token

/-! # Reading tokens from text

A literal is a longest run of digits and points. A minus sign right before a literal belongs to
it where an operand is wanted: at the start, after an operator and after `(`. Every character that
is neither part of a literal nor an operator or parenthesis separates literals and is otherwise
ignored, so every text has tokens.
-/

namespace Calculator.Token

/-- Whether a character may stand in a literal: an ASCII digit or the point. -/
def isLiteralChar (c : Char) : Bool :=
  c.isDigit || c == '.'

/-- Whether a literal without a sign starts here. -/
def startsLiteral : List Char → Bool
  | [] => false
  | c :: _ => isLiteralChar c

/-- The token a character is by itself, if it is one. -/
def ofChar? (c : Char) : Option Token :=
  match c with
  | '(' => some (.paren .left)
  | ')' => some (.paren .right)
  | c => (Operator.ofSymbol? c).map .operator

/-- Whether an operand is wanted right after this token. -/
def wantsOperand : Token → Bool
  | .operator _ | .paren .left => true
  | .number _ | .paren .right => false

/-- The tokens of the characters. `operandWanted` says whether the tokens before them end where an
operand is wanted. -/
def scan (operandWanted : Bool) (cs : List Char) : List Token :=
  match cs with
  | [] => []
  | c :: rest =>
    if isLiteralChar c || (c == '-' && operandWanted && startsLiteral rest) then
      .number (String.ofList (c :: rest.takeWhile isLiteralChar)) ::
        scan false (rest.dropWhile isLiteralChar)
    else
      match ofChar? c with
      | some token => token :: scan token.wantsOperand rest
      | none => scan operandWanted rest
termination_by cs.length
decreasing_by
  · have := (List.dropWhile_sublist isLiteralChar (l := rest)).length_le
    simp only [List.length_cons]
    omega
  · simp
  · simp

/-- The tokens of a text. -/
def tokenize (source : String) : List Token :=
  scan true source.toList

end Calculator.Token
