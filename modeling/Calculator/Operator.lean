/-! # Operators

The four arithmetic operators, how tightly they bind and the characters they are written with.
`ofSymbol?_eq_some_iff` says that a character stands for an operator exactly when it is that
operator's symbol.
-/

namespace Calculator

/-- A binary operator of arithmetic. -/
inductive Operator where
  | add
  | sub
  | mul
  | div
deriving DecidableEq

namespace Operator

/-- Every operator, in the order `+ - * /`. -/
def all : List Operator := [.add, .sub, .mul, .div]

/-- How tightly an operator binds: products and quotients before sums and differences. -/
def precedence : Operator → Nat
  | .add | .sub => 1
  | .mul | .div => 2

/-- Whether a chain of the operator groups to the left; all four do. -/
def groupsLeft (_ : Operator) : Bool := true

/-- The character an operator is written with. -/
def symbol : Operator → Char
  | .add => '+'
  | .sub => '-'
  | .mul => '*'
  | .div => '/'

/-- The symbol as a text. -/
def text (op : Operator) : String := String.singleton op.symbol

/-- The operator a character stands for, if it stands for one. -/
def ofSymbol? : Char → Option Operator
  | '+' => some .add
  | '-' => some .sub
  | '*' => some .mul
  | '/' => some .div
  | _ => none

/-- Whether an operator that waits for its right operand takes what it has when `incoming`
arrives: it binds tighter, or as tightly and `incoming` groups to the left. -/
def closedBy (waiting incoming : Operator) : Bool :=
  incoming.precedence < waiting.precedence ||
    (waiting.precedence == incoming.precedence && incoming.groupsLeft)

@[simp] theorem ofSymbol?_symbol (op : Operator) : ofSymbol? op.symbol = some op := by
  cases op <;> rfl

theorem ofSymbol?_eq_some_iff {c : Char} {op : Operator} :
    ofSymbol? c = some op ↔ c = op.symbol := by
  constructor
  · intro h
    unfold ofSymbol? at h
    split at h <;> simp_all <;> subst h <;> rfl
  · rintro rfl
    exact ofSymbol?_symbol op

theorem mem_all (op : Operator) : op ∈ all := by
  cases op <;> simp [all]

/-- All operators group to the left, so only the precedences decide. -/
theorem closedBy_iff {waiting incoming : Operator} :
    waiting.closedBy incoming = true ↔ incoming.precedence ≤ waiting.precedence := by
  cases waiting <;> cases incoming <;> decide

end Operator

end Calculator
