import Calculator.Token

/-! # Expressions

An expression is a literal or an operator over two expressions. `fold` replaces the two by an
arbitrary value and operation. Trees over an arena (`Calculator.Tree`) are read as expressions.
-/

namespace Calculator

/-- An arithmetic expression; a literal keeps the text it was written with. -/
inductive Expr where
  | literal (text : String)
  | binary (op : Operator) (left right : Expr)
deriving DecidableEq

namespace Expr

/-- The value of an expression when literals and operators stand for what is given. -/
def fold {α : Type} (literal : String → α) (binary : Operator → α → α → α) : Expr → α
  | .literal text => literal text
  | .binary op left right => binary op (left.fold literal binary) (right.fold literal binary)

/-- The text at the top of an expression: a literal's text or an operator's symbol. -/
def label : Expr → String
  | .literal text => text
  | .binary op _ _ => op.text

/-- How many levels an expression has. -/
def depth : Expr → Nat
  | .literal _ => 1
  | .binary _ left right => 1 + max left.depth right.depth

/-- The tokens of an expression, operands before operators. -/
def postorder : Expr → List Token
  | .literal text => [.number text]
  | .binary op left right => left.postorder ++ right.postorder ++ [.operator op]

@[simp] theorem fold_literal {α : Type} (f : String → α) (g : Operator → α → α → α)
    (text : String) : (Expr.literal text).fold f g = f text := rfl

@[simp] theorem fold_binary {α : Type} (f : String → α) (g : Operator → α → α → α)
    (op : Operator) (left right : Expr) :
    (Expr.binary op left right).fold f g = g op (left.fold f g) (right.fold f g) := rfl

/-- The depth goes up from the operands. -/
theorem depth_eq_fold (e : Expr) :
    e.depth = e.fold (fun _ => 1) (fun _ left right => 1 + max left right) := by
  induction e with
  | literal text => rfl
  | binary op left right ihl ihr => rw [depth, fold_binary, ihl, ihr]

end Expr

end Calculator
