import Calculator.Arena

/-! # Trees

A tree is an arena with one of its nodes as root. It is read as the expression its root stands for
(`Tree.expr`); whatever goes up from the children is found in one pass over the arena, so that
shared nodes are met once (`Tree.fold`, `Tree.fold_eq`). The arena may hold nodes that the root
does not reach.
-/

namespace Calculator

/-- An arena and the node that the tree starts at. -/
structure Tree where
  arena : Arena
  root : Nat
  root_lt : root < arena.size
deriving DecidableEq

namespace Tree

/-- The tree with the given root, if the arena has that node. -/
def ofArena? (arena : Arena) (root : Nat) : Option Tree :=
  if h : root < arena.size then some ⟨arena, root, h⟩ else none

/-- How many nodes are stored, also those that the root does not reach. -/
def nodeCount (t : Tree) : Nat := t.arena.size

/-- The value of the tree when literals and operators stand for what is given. -/
def fold {α : Type} (literal : String → α) (binary : Operator → α → α → α) (t : Tree) : α :=
  t.arena.valueAt literal binary t.root t.root_lt

/-- The expression the tree stands for. -/
def expr (t : Tree) : Expr :=
  t.arena.exprAt t.root t.root_lt

/-- How many nodes the longest path from the root to a leaf has. -/
def depth (t : Tree) : Nat :=
  t.fold (fun _ => 1) (fun _ left right => 1 + max left right)

/-- One pass over the arena gives what a walk over the expression gives. -/
theorem fold_eq {α : Type} (literal : String → α) (binary : Operator → α → α → α) (t : Tree) :
    t.fold literal binary = t.expr.fold literal binary :=
  t.arena.valueAt_eq_fold literal binary ..

/-- A tree is as deep as the expression it stands for. -/
theorem depth_eq (t : Tree) : t.depth = t.expr.depth := by
  rw [depth, fold_eq, Expr.depth_eq_fold]

/-- There is a tree with a root exactly if the arena has that node. -/
theorem ofArena?_isSome (arena : Arena) (root : Nat) :
    (ofArena? arena root).isSome = arena.contains root := by
  unfold ofArena? Arena.contains
  split <;> simp_all

end Tree

end Calculator
