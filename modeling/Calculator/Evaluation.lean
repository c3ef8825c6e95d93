import Calculator.Literal
import Calculator.Postfix
import Calculator.Token.Lexer
import Calculator.Tree.Build

/-! # Evaluation

An expression's value is found from its literals up: `Expr.evaluate` walks an expression, the left
operand first, and `Tree.evaluate` finds the same in one pass over the arena
(`Tree.evaluate_eq`). `Evaluation.ofText` takes a text through all stages, from its tokens to its
value; the first stage that finds an error reports it.
-/

namespace Calculator

/-- The value of an operator on two numbers. Division by zero is as in binary64 arithmetic. -/
def Operator.apply : Operator → Binary64 → Binary64 → Binary64
  | .add, x, y => x + y
  | .sub, x, y => x - y
  | .mul, x, y => x * y
  | .div, x, y => x / y

/-- An operator on the outcomes of its operands; of two errors the left one counts. -/
def Operator.applyOutcomes (op : Operator) (left right : Except LiteralError Binary64) :
    Except LiteralError Binary64 := do
  let x ← left
  let y ← right
  return op.apply x y

/-- The value of an expression, or its leftmost bad literal. -/
def Expr.evaluate : Expr → Except LiteralError Binary64
  | .literal text => Literal.value text
  | .binary op left right => op.applyOutcomes left.evaluate right.evaluate

/-- The value of a tree. -/
def Tree.evaluate (t : Tree) : Except LiteralError Binary64 :=
  t.fold Literal.value Operator.applyOutcomes

theorem Expr.evaluate_eq_fold (e : Expr) :
    e.evaluate = e.fold Literal.value Operator.applyOutcomes := by
  induction e with
  | literal text => rfl
  | binary op left right ihl ihr => rw [evaluate, fold_binary, ihl, ihr]

/-- A tree has the value of the expression it stands for. -/
theorem Tree.evaluate_eq (t : Tree) : t.evaluate = t.expr.evaluate := by
  rw [evaluate, fold_eq, Expr.evaluate_eq_fold]

/-- All that is found on the way from a text to its value. -/
structure Evaluation where
  tokens : List Token
  postfixTokens : List Token
  tree : Tree
  value : Binary64

/-- The evaluation of a text. -/
def Evaluation.ofText (source : String) : Except ExpressionError Evaluation := do
  let tokens := Token.tokenize source
  let postfixTokens := Token.toPostfix tokens
  let tree ← (Tree.ofPostfix postfixTokens).mapError .structural
  let value ← tree.evaluate.mapError .literal
  return { tokens, postfixTokens, tree, value }

/-- A text that has no tree is reported with the reason. -/
theorem Evaluation.ofText_of_error {source : String} {error : StructuralError}
    (h : Tree.ofPostfix (Token.toPostfix (Token.tokenize source)) = .error error) :
    ofText source = .error (.structural error) := by
  simp only [ofText, h]
  rfl

/-- A text that has a tree is evaluated as the tree is. -/
theorem Evaluation.ofText_of_tree {source : String} {t : Tree}
    (h : Tree.ofPostfix (Token.toPostfix (Token.tokenize source)) = .ok t) :
    ofText source = (t.evaluate.mapError .literal).map
      (⟨Token.tokenize source, Token.toPostfix (Token.tokenize source), t, ·⟩) := by
  simp only [ofText, h]
  show (t.evaluate.mapError ExpressionError.literal).bind _ = _
  cases t.evaluate <;> rfl

/-- Nothing but a missing tree is a structural error. -/
theorem Evaluation.exists_tree {source : String}
    (h : ∀ error, ofText source ≠ .error (.structural error)) :
    ∃ t, Tree.ofPostfix (Token.toPostfix (Token.tokenize source)) = .ok t := by
  cases htree : Tree.ofPostfix (Token.toPostfix (Token.tokenize source)) with
  | error error => exact absurd (ofText_of_error htree) (h error)
  | ok t => exact ⟨t, rfl⟩

/-- The value of a text. -/
def evaluate (source : String) : Except ExpressionError Binary64 :=
  (Evaluation.ofText source).map Evaluation.value

end Calculator
