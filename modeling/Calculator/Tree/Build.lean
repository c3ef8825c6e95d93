import Calculator.Error
import Calculator.Tree

/-! # Building a tree from postfix order

The tokens are taken in order, with a stack of the subtrees that are not yet part of another. A
number is a new leaf; an operator takes the two latest subtrees, the right operand first. Exactly
one subtree has to be left at the end.
-/

namespace Calculator

/-- A tree under construction: the nodes so far, and the roots of the subtrees that wait for an
operator, the latest first. -/
structure Builder where
  arena : Arena
  waiting : List Nat
  waiting_lt : ∀ id ∈ waiting, id < arena.size

namespace Builder

/-- Nothing built yet. -/
def start : Builder := ⟨.empty, [], nofun⟩

/-- The builder after a number. -/
def pushLiteral (b : Builder) (text : String) : Builder where
  arena := (b.arena.addLiteral text).2
  waiting := (b.arena.addLiteral text).1 :: b.waiting
  waiting_lt id h := by
    rw [Arena.size_addLiteral]
    rcases List.mem_cons.1 h with rfl | h
    · exact Nat.lt_succ_self _
    · exact Nat.lt_succ_of_lt (b.waiting_lt id h)

/-- The builder after an operator whose operands are the two latest subtrees. -/
def pushBinary (b : Builder) (op : Operator) (right left : Nat) (rest : List Nat)
    (h : b.waiting = right :: left :: rest) : Builder :=
  have hr := b.waiting_lt right (by simp [h])
  have hl := b.waiting_lt left (by simp [h])
  { arena := (b.arena.addBinary op left right hl hr).2
    waiting := (b.arena.addBinary op left right hl hr).1 :: rest
    waiting_lt := fun id hid => by
      rw [Arena.size_addBinary]
      rcases List.mem_cons.1 hid with rfl | hid
      · exact Nat.lt_succ_self _
      · exact Nat.lt_succ_of_lt (b.waiting_lt id (by simp [h, hid])) }

/-- The builder after one more token. -/
def push (b : Builder) : Token → Except StructuralError Builder
  | .number text => .ok (b.pushLiteral text)
  | .operator op =>
    match h : b.waiting with
    | right :: left :: rest => .ok (b.pushBinary op right left rest h)
    | few => .error (.missingOperand op few.length)
  | .paren side => .error (.unexpectedParen side)

/-- The tree, if exactly one subtree is left. -/
def finish (b : Builder) : Except StructuralError Tree :=
  match h : b.waiting with
  | [] => .error .empty
  | [root] => .ok ⟨b.arena, root, b.waiting_lt root (by simp [h])⟩
  | roots => .error (.multipleRoots roots.length)

end Builder

/-- The tree of a token list in postfix order. -/
def Tree.ofPostfix (tokens : List Token) : Except StructuralError Tree := do
  (← tokens.foldlM Builder.push Builder.start).finish

end Calculator
