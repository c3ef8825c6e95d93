import Calculator.Operator

/-! # Tokens

The words of an expression and the texts they are shown as. A list of tokens is shown in three
ways: the texts with single blanks between them (`spaced`), one description a token (`describe`),
and the descriptions of the whole list in brackets (`describeAll`).
-/

namespace Calculator

/-- A side of a parenthesis pair. -/
inductive Paren where
  | left
  | right
deriving DecidableEq

/-- The character a parenthesis is written with. -/
def Paren.symbol : Paren → Char
  | .left => '('
  | .right => ')'

/-- A word of an expression. A number keeps the text it was written with: whether that text
denotes a number is decided when it is evaluated. -/
inductive Token where
  | number (text : String)
  | operator (op : Operator)
  | paren (side : Paren)
deriving DecidableEq

namespace Token

/-- The text a token was written with. -/
def text : Token → String
  | .number text => text
  | .operator op => op.text
  | .paren side => String.singleton side.symbol

/-- A token's kind and, where the kind does not determine it, its text. -/
def describe : Token → String
  | .number text => "Number(" ++ text ++ ")"
  | .operator op => "Operator(" ++ op.text ++ ")"
  | .paren .left => "LeftParen"
  | .paren .right => "RightParen"

/-- Whether the token is an operand. -/
def isNumber : Token → Bool
  | .number _ => true
  | _ => false

/-- The operator a token carries, if it is one. -/
def operator? : Token → Option Operator
  | .operator op => some op
  | _ => none

/-- The tokens' texts in a row, one blank between neighbours. -/
def spaced (tokens : List Token) : String :=
  String.intercalate " " (tokens.map text)

/-- A list of tokens with the descriptions of its members. -/
def describeAll (tokens : List Token) : String :=
  "TokenList \x7b tokens: [" ++ String.intercalate ", " (tokens.map describe) ++ "] \x7d"

end Token

end Calculator
