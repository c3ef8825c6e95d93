import Mathlib
import Calculator.Evaluation
import Calculator.Proofs.Building
import Calculator.Proofs.Lookups

/-!
# Evaluation with a stack of numbers

A token list in postfix order can be evaluated without a tree, in one pass with a stack of numbers
(`Postfix.evaluate`). Beside the builder's pass, these numbers are the values of the expressions
that wait there, the oldest found first (`Expr.values`): a token that the builder takes leads from
the values of one stack to those of the next (`Postfix.compute_values`), and a token that it refuses
is refused here (`Postfix.compute_of_shift_error`). The two passes differ in one thing: a bad literal
ends this one at once, whatever the tokens after it are. `Postfix.evaluate_agrees` says what follows
for every token list.
-/

namespace Calculator

namespace Postfix

/-- The stack of numbers after one more token, the latest number first. -/
def compute (stack : List Binary64) : Token → Except ExpressionError (List Binary64)
  | .number text => do
    let x ← (Literal.value text).mapError .literal
    return x :: stack
  | .operator op =>
    match stack with
    | right :: left :: rest => .ok (op.apply left right :: rest)
    | few => .error (.structural (.missingOperand op few.length))
  | .paren side => .error (.structural (.unexpectedParen side))

/-- The number, if the stack holds exactly one. -/
def result : List Binary64 → Except ExpressionError Binary64
  | [] => .error (.structural .empty)
  | [x] => .ok x
  | stack => .error (.structural (.multipleRoots stack.length))

/-- The value of tokens in postfix order, found in one pass. -/
def evaluate (tokens : List Token) : Except ExpressionError Binary64 := do
  result (← tokens.foldlM compute [])

end Postfix

/-- The values of the expressions on a stack; the oldest one's bad literal comes first. -/
def Expr.values : List Expr → Except LiteralError (List Binary64)
  | [] => .ok []
  | e :: older => do
    let xs ← values older
    let x ← e.evaluate
    return x :: xs

namespace Postfix

variable {stack next : List Expr} {token : Token} {tokens : List Token}

/-- A token that the builder takes leads from the values of what waits before it to the values of
what waits after it. -/
theorem compute_values (h : Expr.shift stack token = .ok next) :
    ((Expr.values stack).mapError .literal >>= (compute · token)) =
      (Expr.values next).mapError .literal := by
  rcases token with text | op | side
  · obtain rfl := Except.ok.inj h
    rw [Expr.values, Expr.evaluate]
    cases Expr.values stack with
    | error error => rfl
    | ok xs =>
      show compute xs (.number text) = _
      rw [compute]
      cases Literal.value text <;> rfl
  · rcases stack with _ | ⟨right, _ | ⟨left, rest⟩⟩
    · cases h
    · cases h
    · obtain rfl := Except.ok.inj h
      rw [Expr.values, Expr.values, Expr.values, Expr.evaluate]
      cases Expr.values rest with
      | error error => rfl
      | ok xs =>
        cases left.evaluate with
        | error error => rfl
        | ok x => cases right.evaluate <;> rfl
  · cases h

theorem foldlM_compute_values (h : tokens.foldlM Expr.shift stack = .ok next) :
    ((Expr.values stack).mapError .literal >>= (tokens.foldlM compute ·)) =
      (Expr.values next).mapError .literal := by
  induction tokens generalizing stack with
  | nil =>
    obtain rfl := Except.ok.inj h
    cases Expr.values stack <;> rfl
  | cons token rest ih =>
    obtain ⟨middle, hshift, hrest⟩ := foldlM_cons_eq_ok_iff.1 h
    rw [← ih hrest, ← compute_values hshift]
    cases Expr.values stack <;> rfl

theorem length_values {xs : List Binary64} (h : Expr.values stack = .ok xs) :
    xs.length = stack.length := by
  induction stack generalizing xs with
  | nil =>
    obtain rfl := Except.ok.inj h
    rfl
  | cons e older ih =>
    obtain ⟨ys, holder, hvalue⟩ := bind_eq_ok_iff.1 h
    obtain ⟨x, -, hx⟩ := bind_eq_ok_iff.1 hvalue
    obtain rfl := Except.ok.inj hx
    rw [List.length_cons, List.length_cons, ih holder]

/-- A token that the builder refuses ends this pass with the same error, if it comes there. -/
theorem compute_of_shift_error {xs : List Binary64} {error : StructuralError}
    (hvalues : Expr.values stack = .ok xs) (h : Expr.shift stack token = .error error) :
    compute xs token = .error (.structural error) := by
  have hlength := length_values hvalues
  rcases token with text | op | side
  · cases h
  · rcases stack with _ | ⟨right, _ | ⟨left, rest⟩⟩
    · obtain rfl := Except.error.inj h
      obtain rfl := List.eq_nil_of_length_eq_zero hlength
      rfl
    · obtain rfl := Except.error.inj h
      obtain ⟨x, rfl⟩ := List.length_eq_one_iff.1 hlength
      rfl
    · cases h
  · obtain rfl := Except.error.inj h
    rfl

/-- What the builder refuses has no value here: a bad literal comes first, or the builder's own
error is met. -/
theorem foldlM_compute_of_shift_error {xs : List Binary64} {error : StructuralError}
    (hvalues : Expr.values stack = .ok xs) (h : tokens.foldlM Expr.shift stack = .error error) :
    tokens.foldlM compute xs = .error (.structural error) ∨
      ∃ bad, tokens.foldlM compute xs = .error (.literal bad) := by
  induction tokens generalizing stack xs with
  | nil => cases h
  | cons token rest ih =>
    rw [List.foldlM_cons]
    rcases foldlM_cons_eq_error_iff.1 h with hshift | ⟨middle, hshift, hrest⟩
    · rw [compute_of_shift_error hvalues hshift]
      exact .inl rfl
    · have hcompute : compute xs token = (Expr.values middle).mapError .literal := by
        rw [← compute_values hshift, hvalues]
        rfl
      rw [hcompute]
      cases hmiddle : Expr.values middle with
      | error bad => exact .inr ⟨bad, rfl⟩
      | ok ys => exact ih hmiddle hrest

/-! ## The outcome -/

/-- The value of the one expression that is left is the one number that is left. -/
theorem result_values_singleton (e : Expr) :
    (Expr.values [e]).mapError .literal >>= result = e.evaluate.mapError .literal := by
  rw [Expr.values, Expr.values]
  cases e.evaluate <;> rfl

/-- Unless exactly one expression is left, the numbers that are left are reported as the expressions
are. -/
theorem result_of_only_error {xs : List Binary64} {error : StructuralError}
    (hvalues : Expr.values stack = .ok xs) (h : Expr.only stack = .error error) :
    result xs = .error (.structural error) := by
  have hlength := length_values hvalues
  rcases stack with _ | ⟨e, _ | ⟨e', rest⟩⟩
  · obtain rfl := Except.error.inj h
    obtain rfl := List.eq_nil_of_length_eq_zero hlength
    rfl
  · cases h
  · obtain rfl := Except.error.inj h
    rw [← hlength]
    rcases xs with _ | ⟨x, _ | ⟨y, ys⟩⟩
    · cases hlength
    · cases hlength
    · rfl

/-- What is built has the value of its tree, or the same bad literal, also without the tree; and a
walk from the root down to the children, the left one first, finds it as well. What is not built has
no value: its structural error is reported, unless a bad literal comes before it. -/
theorem evaluate_agrees (tokens : List Token) :
    (∀ t, Tree.ofPostfix tokens = .ok t →
      evaluate tokens = t.evaluate.mapError .literal ∧
        Lookup.evaluate? t.arena.nodes (t.root + 1) t.root = some t.evaluate) ∧
    ∀ error, Tree.ofPostfix tokens = .error error →
      evaluate tokens = .error (.structural error) ∨
        ∃ bad, evaluate tokens = .error (.literal bad) := by
  refine ⟨fun t ht => ⟨?_, Lookup.evaluate?_eq t (Nat.lt_succ_self _)⟩, fun error herror => ?_⟩
  · rw [evaluate, Tree.evaluate_eq, ← result_values_singleton]
    exact congrArg (· >>= result) (foldlM_compute_values (Tree.expr_of_ofPostfix ht))
  · have hmap := Tree.ofPostfix_map_expr tokens
    rw [herror] at hmap
    rw [evaluate]
    rcases bind_eq_error_iff.1 hmap.symm with hfold | ⟨stack, hfold, honly⟩
    · rcases foldlM_compute_of_shift_error rfl hfold with hfail | ⟨bad, hfail⟩
      · exact .inl (by rw [hfail]; rfl)
      · exact .inr ⟨bad, by rw [hfail]; rfl⟩
    · have hcompute : tokens.foldlM compute [] = (Expr.values stack).mapError .literal :=
        foldlM_compute_values hfold
      rw [hcompute]
      cases hvalues : Expr.values stack with
      | error bad => exact .inr ⟨bad, rfl⟩
      | ok xs => exact .inl (result_of_only_error hvalues honly)

/-- `1 -0 /`, whose value is infinite, two bad literals, and one before an operator that lacks an
operand. -/
theorem evaluate_agrees_each :
    let quotient := [.number "1", .number "-0", .operator .div]
    let bad := [.number "1", .number ".", .number "2..", .operator .mul, .operator .sub]
    let lacking := [.number ".", .operator .add]
    (∃ t, Tree.ofPostfix quotient = .ok t ∧ evaluate quotient = t.evaluate.mapError .literal ∧
      Lookup.evaluate? t.arena.nodes (t.root + 1) t.root = some t.evaluate) ∧
    (∃ t, Tree.ofPostfix bad = .ok t ∧ evaluate bad = t.evaluate.mapError .literal ∧
      Lookup.evaluate? t.arena.nodes (t.root + 1) t.root = some t.evaluate) ∧
    (Tree.ofPostfix lacking = .error (.missingOperand .add 1) ∧
      (evaluate lacking = .error (.structural (.missingOperand .add 1)) ∨
        ∃ literal, evaluate lacking = .error (.literal literal))) := by
  intro quotient bad lacking
  exact ⟨⟨_, rfl, (evaluate_agrees quotient).1 _ rfl⟩, ⟨_, rfl, (evaluate_agrees bad).1 _ rfl⟩,
    rfl, (evaluate_agrees lacking).2 _ rfl⟩

end Postfix

end Calculator
