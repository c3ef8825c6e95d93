import Calculator.Token

/-! # Postfix order

An expression's tokens are reordered so that each operator follows its operands. Operators and open
groups wait on a stack, the latest first. An operand is put out at once; an operator first closes
the waiting operators of its group that bind at least as tightly; `)` closes all operators of its
group and the group, or, when no group is open, all operators there are. What still waits at the
end is put out then. Every token list has a postfix order, and it holds no parentheses.
-/

namespace Calculator.Postfix

/-- What waits: an operator for its right operand, or a group for its `)`. -/
inductive Waiting where
  | operator (op : Operator)
  | group
deriving DecidableEq

/-- The operator that waits, as a token. -/
def Waiting.token? : Waiting → Option Token
  | .operator op => some (.operator op)
  | .group => none

/-- Puts out the waiting operators that `incoming` closes; the rest keep waiting. -/
def closeOperators (incoming : Operator) : List Waiting → List Token × List Waiting
  | .operator waiting :: rest =>
    if waiting.closedBy incoming then
      let (out, left) := closeOperators incoming rest
      (.operator waiting :: out, left)
    else
      ([], .operator waiting :: rest)
  | stack => ([], stack)

/-- Puts out the operators of the latest group and drops the group; with no group open, puts out
all operators. -/
def closeGroup : List Waiting → List Token × List Waiting
  | [] => ([], [])
  | .group :: rest => ([], rest)
  | .operator waiting :: rest =>
    let (out, left) := closeGroup rest
    (.operator waiting :: out, left)

/-- What one token puts out, and what waits after it. -/
def step (stack : List Waiting) : Token → List Token × List Waiting
  | .number text => ([.number text], stack)
  | .paren .left => ([], .group :: stack)
  | .paren .right => closeGroup stack
  | .operator op =>
    let (out, left) := closeOperators op stack
    (out, .operator op :: left)

/-- What a list of tokens puts out, and what waits after it. -/
def run (stack : List Waiting) : List Token → List Token × List Waiting
  | [] => ([], stack)
  | token :: rest =>
    let (out, left) := step stack token
    let (more, last) := run left rest
    (out ++ more, last)

/-- Puts out all waiting operators; groups that are still open are dropped. -/
def drain (stack : List Waiting) : List Token :=
  stack.filterMap Waiting.token?

/-- Tokens in a row: the later ones start with what waits after the earlier ones. -/
theorem run_append (stack : List Waiting) (earlier later : List Token) :
    run stack (earlier ++ later) =
      ((run stack earlier).1 ++ (run (run stack earlier).2 later).1,
        (run (run stack earlier).2 later).2) := by
  induction earlier generalizing stack with
  | nil => rfl
  | cons token rest ih => simp only [List.cons_append, run, ih, List.append_assoc]

end Calculator.Postfix

namespace Calculator

/-- The tokens in postfix order. -/
def Token.toPostfix (tokens : List Token) : List Token :=
  let (out, left) := Postfix.run [] tokens
  out ++ Postfix.drain left

end Calculator
