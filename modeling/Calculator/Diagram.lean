import Calculator.Binary64.Text
import Calculator.Diagram.Layout
import Calculator.Text.Xml

/-! # SVG diagrams

A diagram has a disc with a label for each node that the root reaches and a line from each binary
node to each of its operands. `Diagram.ofTree` places them (`Calculator.Layout`), nodes of higher
numbers first; `Diagram.svg` writes them as an SVG document, the lines before the discs, so that
discs cover the ends of lines.
-/

namespace Calculator

/-- A labelled disc for a node. -/
structure Disc where
  centre : Point
  label : String
deriving DecidableEq

/-- A line from a binary node's place to its left or right operand's place. -/
structure Edge where
  parent : Point
  child : Point
  isLeft : Bool
deriving DecidableEq

/-- What is drawn, and the size of the canvas. -/
structure Diagram where
  width : Binary64
  height : Binary64
  edges : List Edge
  discs : List Disc

namespace Diagram

/-! ## What is drawn -/

/-- The lines from one node to its operands. -/
def edgesFrom (a : Arena) (places : Vector (Option Point) a.size) (id : Fin a.size) : List Edge :=
  match places.get id, a.node id id.isLt, a.node_childrenBelow id id.isLt with
  | some parent, .binary _ left right, below =>
    have hl : left < a.size := Nat.lt_trans below.1 id.isLt
    have hr : right < a.size := Nat.lt_trans below.2 id.isLt
    (places[left].map fun child => ⟨parent, child, true⟩).toList ++
      (places[right].map fun child => ⟨parent, child, false⟩).toList
  | _, _, _ => []

section

variable {a : Arena} {places : Vector (Option Point) a.size} {id : Fin a.size}

theorem edgesFrom_none (hplace : places.get id = none) : edgesFrom a places id = [] := by
  unfold edgesFrom
  split
  · simp_all
  · rfl

theorem edgesFrom_literal {text : String} (hnode : a.get? id = some (.literal text)) :
    edgesFrom a places id = [] := by
  obtain ⟨_, hnode⟩ := Arena.get?_eq_some_iff.1 hnode
  unfold edgesFrom
  split
  · simp_all
  · rfl

theorem edgesFrom_binary {parent : Point} {op : Operator} {left right : Nat}
    (hplace : places.get id = some parent) (hnode : a.get? id = some (.binary op left right))
    (hl : left < a.size) (hr : right < a.size) :
    edgesFrom a places id =
      (places[left].map fun child => ⟨parent, child, true⟩).toList ++
        (places[right].map fun child => ⟨parent, child, false⟩).toList := by
  obtain ⟨_, hnode⟩ := Arena.get?_eq_some_iff.1 hnode
  unfold edgesFrom
  split
  · rename_i hplace' hnode' _
    rw [hplace] at hplace'
    rw [hnode] at hnode'
    cases hplace'
    cases hnode'
    rfl
  · rename_i below hother
    exact (hother parent op left right (hnode ▸ below) hplace hnode (proof_irrel_heq _ _)).elim

end

/-- The disc of a node, if it has a place. -/
def disc? (a : Arena) (places : Vector (Option Point) a.size) (id : Fin a.size) : Option Disc :=
  (places.get id).map fun centre => ⟨centre, (a.node id id.isLt).label⟩

/-- The diagram of a tree. -/
def ofTree (t : Tree) : Diagram :=
  let places := Layout.positions t
  let ids := (List.finRange t.arena.size).reverse
  { width := Layout.canvasWidth t
    height := Layout.canvasHeight t
    edges := ids.flatMap (edgesFrom t.arena places)
    discs := ids.filterMap (disc? t.arena places) }

/-! ## The document -/

/-- The radius of a disc. -/
def radius : Binary64 := 18

/-- How far a label's base line is below the centre of its disc. -/
def labelDrop : Binary64 := 5

/-- The colour of a line to a left operand. -/
def leftColour : String := "#57e6b6"

/-- The colour of a line to a right operand. -/
def rightColour : String := "#60a5fa"

/-- The opening tag: the canvas from the origin to its width and height. -/
def header (d : Diagram) : String :=
  let w := d.width.text
  let h := d.height.text
  "<svg xmlns=\"http://www.w3.org/2000/svg\" viewBox=\"0 0 " ++ w ++ " " ++ h ++ "\" width=\"" ++
    w ++ "\" height=\"" ++ h ++ "\">"

/-- A line from the bottom of the parent's disc to the top of the operand's. -/
def edgeElement (e : Edge) : String :=
  "  <line x1=\"" ++ e.parent.x.text ++ "\" y1=\"" ++ (e.parent.y + radius).text ++
    "\" x2=\"" ++ e.child.x.text ++ "\" y2=\"" ++ (e.child.y - radius).text ++
    "\" stroke=\"" ++ (if e.isLeft then leftColour else rightColour) ++
    "\" stroke-width=\"1.5\"/>"

/-- A disc with its label in the middle. -/
def discElement (d : Disc) : String :=
  let x := d.centre.x.text
  "  <g><circle cx=\"" ++ x ++ "\" cy=\"" ++ d.centre.y.text ++ "\" r=\"" ++ radius.text ++
    "\" fill=\"#07192a\" stroke=\"#88ffd1\" stroke-width=\"1\"/><text x=\"" ++ x ++ "\" y=\"" ++
    (d.centre.y + labelDrop).text ++
    "\" fill=\"#e6eef6\" font-size=\"12\" text-anchor=\"middle\">" ++ Text.Xml.encode d.label ++
    "</text></g>"

/-- The lines of the document. -/
def svgLines (d : Diagram) : List String :=
  d.header :: d.edges.map edgeElement ++ d.discs.map discElement ++ ["</svg>"]

/-- The document; every line is closed by a line end. -/
def svg (d : Diagram) : String :=
  String.join (d.svgLines.map (· ++ "\n"))

end Diagram

/-- The SVG document of a tree. -/
def Tree.svg (t : Tree) : String := (Diagram.ofTree t).svg

end Calculator
