import Calculator.Binary64
import Calculator.Tree

/-! # Places of nodes in a diagram

A subtree takes a width: a fixed one for a leaf, and at least those of its operands with a gap
between them for a binary node (`widths`, one pass up the arena). The root stands above the middle
of its width; the operands of a placed node stand one level below it, side by side and centred
under it (`positions`, one pass down the arena). A node with several parents is placed by each of
them in turn, and stays where the last one, which has the lowest number, puts it. Nodes that the
root does not reach have no place.
-/

namespace Calculator

/-- A place on the canvas. -/
structure Point where
  x : Binary64
  y : Binary64
deriving DecidableEq

namespace Layout

/-- The least width a node takes. -/
def nodeWidth : Binary64 := 48

/-- The gap between the subtrees of two operands. -/
def siblingGap : Binary64 := 16

/-- The distance of two levels. -/
def levelHeight : Binary64 := 90

/-- The space above the root. -/
def topMargin : Binary64 := 24

/-- The space below the lowest level. -/
def bottomMargin : Binary64 := 40

/-- The space on the left and on the right. -/
def sideMargin : Binary64 := 20

/-- The least width of the canvas. -/
def minCanvasWidth : Binary64 := 480

/-- The width of two operands side by side. -/
def pairWidth (left right : Binary64) : Binary64 := left + right + siblingGap

/-- The width of a binary node over operands of the given widths. -/
def binaryWidth (left right : Binary64) : Binary64 := .max nodeWidth (pairWidth left right)

/-- The widths of all nodes' subtrees. -/
def widths (a : Arena) : Vector Binary64 a.size :=
  a.values (fun _ => nodeWidth) (fun _ => binaryWidth)

/-- The places of two operands below their parent. -/
def operandPlaces (parent : Point) (leftWidth rightWidth : Binary64) : Point × Point :=
  let start := parent.x - pairWidth leftWidth rightWidth / 2
  let y := parent.y + levelHeight
  (⟨start + leftWidth / 2, y⟩, ⟨start + leftWidth + siblingGap + rightWidth / 2, y⟩)

/-- Places the operands of one node, if it is a binary node with a place. -/
def placeOperands (a : Arena) (widths : Vector Binary64 a.size) (id : Nat) (h : id < a.size)
    (places : Vector (Option Point) a.size) : Vector (Option Point) a.size :=
  match places[id], a.node id h, a.node_childrenBelow id h with
  | some parent, .binary _ left right, below =>
    have hl : left < a.size := Nat.lt_trans below.1 h
    have hr : right < a.size := Nat.lt_trans below.2 h
    let (leftPlace, rightPlace) := operandPlaces parent widths[left] widths[right]
    (places.set left (some leftPlace)).set right (some rightPlace)
  | _, _, _ => places

section

variable {a : Arena} {widths : Vector Binary64 a.size} {id : Nat} {h : id < a.size}
  {places : Vector (Option Point) a.size}

theorem placeOperands_none (hplace : places[id] = none) :
    placeOperands a widths id h places = places := by
  unfold placeOperands
  split
  · simp_all
  · rfl

theorem placeOperands_literal {text : String} (hnode : a.get? id = some (.literal text)) :
    placeOperands a widths id h places = places := by
  obtain ⟨_, hnode⟩ := Arena.get?_eq_some_iff.1 hnode
  unfold placeOperands
  split
  · simp_all
  · rfl

theorem placeOperands_binary {parent : Point} {op : Operator} {left right : Nat}
    (hplace : places[id] = some parent) (hnode : a.get? id = some (.binary op left right))
    (hl : left < a.size) (hr : right < a.size) :
    placeOperands a widths id h places =
      (places.set left (some (operandPlaces parent widths[left] widths[right]).1)).set right
        (some (operandPlaces parent widths[left] widths[right]).2) := by
  obtain ⟨_, hnode⟩ := Arena.get?_eq_some_iff.1 hnode
  unfold placeOperands
  split
  · rename_i hplace' hnode' _
    rw [hplace] at hplace'
    rw [hnode] at hnode'
    cases hplace'
    cases hnode'
    rfl
  · rename_i below hother
    exact (hother parent op left right (hnode ▸ below) hplace hnode (proof_irrel_heq _ _)).elim

end

/-- Places the operands of all nodes below `count`, the highest number first. -/
def placeBelow (a : Arena) (widths : Vector Binary64 a.size) :
    (count : Nat) → count ≤ a.size → Vector (Option Point) a.size → Vector (Option Point) a.size
  | 0, _, places => places
  | id + 1, h, places =>
    placeBelow a widths id (Nat.le_of_succ_le h) (placeOperands a widths id h places)

theorem placeBelow_succ {a : Arena} {widths : Vector Binary64 a.size} {id : Nat}
    (h : id + 1 ≤ a.size) (places : Vector (Option Point) a.size) :
    placeBelow a widths (id + 1) h places =
      placeBelow a widths id (Nat.le_of_succ_le h) (placeOperands a widths id h places) :=
  rfl

/-- The width of the whole tree. -/
def rootWidth (t : Tree) : Binary64 :=
  t.fold (fun _ => nodeWidth) (fun _ => binaryWidth)

/-- The place of the root: the middle of its width, on the top level. -/
def rootPlace (t : Tree) : Point := ⟨rootWidth t / 2 + sideMargin, topMargin⟩

/-- The places of all nodes that the root reaches. -/
def positions (t : Tree) : Vector (Option Point) t.arena.size :=
  placeBelow t.arena (widths t.arena) t.arena.size (Nat.le_refl _)
    ((Vector.replicate t.arena.size none).set t.root (some (rootPlace t)) t.root_lt)

/-- The width of the canvas: the root's width and the margins, but not less than the least. -/
def canvasWidth (t : Tree) : Binary64 :=
  .max minCanvasWidth (rootWidth t + 2 * sideMargin)

/-- The height of the canvas: all levels and the margins. -/
def canvasHeight (t : Tree) : Binary64 :=
  topMargin + .ofNat t.depth * levelHeight + bottomMargin

end Layout

end Calculator
