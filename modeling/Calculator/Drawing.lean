import Calculator.Tree

/-! # Text drawings

A tree is drawn with one line a node: the root's label, and below it the drawings of the left and
the right operand, each line behind a margin that shows which branches go on below.

```text
+
├── 3
└── *
    ├── 4
    └── 2
```
-/

namespace Calculator

namespace Expr

/-- The lines below an expression's own line, behind a margin. -/
def branches (margin : String) : Expr → List String
  | .literal _ => []
  | .binary _ left right =>
    (margin ++ "├── " ++ left.label) :: left.branches (margin ++ "│   ") ++
      (margin ++ "└── " ++ right.label) :: right.branches (margin ++ "    ")

/-- The lines of an expression's drawing. -/
def drawingLines (e : Expr) : List String :=
  e.label :: e.branches ""

/-- The drawing of an expression; every line is closed by a line end. -/
def drawing (e : Expr) : String :=
  String.join (e.drawingLines.map (· ++ "\n"))

end Expr

/-- The drawing of a tree: a node with several parents is drawn below each of them. -/
def Tree.drawing (t : Tree) : String := t.expr.drawing

end Calculator
