import Mathlib
import Calculator.Proofs.Unfolding

/-!
# The lines of a text drawing

Below the root's line a drawing has a line for each path that goes down from the root: a margin
that shows all steps but the last, then the last step, then the label of the node there
(`Branch.line`). The paths come in preorder (`Arena.Preorder`). The lines may be written with one
margin that all nodes share: it is made longer for a child's branches, and after them cut back to
the number of bytes it had before. It is then what it was, whatever was written
(`Lookup.writeBelow?_eq`). `Tree.drawing_lines` puts the two together.
-/

namespace Calculator

namespace Side

/-- What a line shows of a step before its last one: a rule, if the right operand's line is still to
come below. -/
def rule : Side → String
  | .left => "│   "
  | .right => "    "

/-- What a line shows of its last step. -/
def fork : Side → String
  | .left => "├── "
  | .right => "└── "

/-- The left side comes before the right one. -/
def Before (s s' : Side) : Prop := s = .left ∧ s' = .right

instance : Std.Asymm Before where
  asymm := by
    rintro _ _ ⟨rfl, rfl⟩ ⟨h, -⟩
    cases h

end Side

/-- A node below another, and the path to it: all steps but the last, and the last one. -/
structure Branch where
  steps : List Side
  last : Side
  node : Node

namespace Branch

/-- The path to the node. -/
def path (b : Branch) : List Side := b.steps ++ [b.last]

/-- The line that shows the node. -/
def line (b : Branch) : String :=
  String.join (b.steps.map Side.rule) ++ b.last.fork ++ b.node.label

/-- The branch as it is seen from the node above, which it starts from on the given side. -/
def under (side : Side) (b : Branch) : Branch := { b with steps := side :: b.steps }

/-- The branches that start on one side: the one to the child there, and those below the child. -/
def family (side : Side) (child : Node) (below : List Branch) : List Branch :=
  ⟨[], side, child⟩ :: below.map (under side)

theorem under_inj {side side' : Side} {b b' : Branch} :
    b.under side = b'.under side' ↔ side = side' ∧ b = b' := by
  obtain ⟨steps, last, node⟩ := b
  obtain ⟨steps', last', node'⟩ := b'
  simp [under, and_assoc]

theorem path_under (side : Side) (b : Branch) : (b.under side).path = side :: b.path := rfl

theorem path_ne_nil (b : Branch) : b.path ≠ [] := by simp [path]

/-- A branch ends at the child where it starts, or goes on from there. -/
theorem cases_under (b : Branch) :
    (∃ side node, b = ⟨[], side, node⟩) ∨ ∃ side below, b = under side below := by
  obtain ⟨_ | ⟨side, steps⟩, last, node⟩ := b
  · exact .inl ⟨last, node, rfl⟩
  · exact .inr ⟨side, ⟨steps, last, node⟩, rfl⟩

theorem line_child (side : Side) (child : Node) :
    line ⟨[], side, child⟩ = side.fork ++ child.label := by
  simp [line]

theorem line_under (side : Side) (b : Branch) : (b.under side).line = side.rule ++ b.line := by
  simp [line, under, String.append_assoc]

/-- Behind a margin, a child's branches are its own line and its branches' behind a longer one. -/
theorem map_line_family (margin : String) (side : Side) (child : Node) (below : List Branch) :
    (family side child below).map (fun b => margin ++ b.line) =
      (margin ++ side.fork ++ child.label) ::
        below.map fun b => margin ++ side.rule ++ b.line := by
  simp [family, line_child, line_under, String.append_assoc, Function.comp_def]

end Branch

namespace Arena

/-! ## Paths in preorder -/

/-- The branches are those below a node, one for each path that goes down from it, in preorder: what
is above comes before what is below it, and what is to the left before what is to the right. -/
structure Preorder (a : Arena) (id : Nat) (branches : List Branch) : Prop where
  mem : ∀ b, b ∈ branches ↔ (a.follow? id b.path).bind a.get? = some b.node
  order : (branches.map Branch.path).Pairwise (List.Lex Side.Before)

variable {a : Arena} {id : Nat}

theorem Preorder.unique {branches branches' : List Branch} (h : a.Preorder id branches)
    (h' : a.Preorder id branches') : branches' = branches := by
  have hperm : branches'.Perm branches :=
    (List.perm_ext_iff_of_nodup h'.order.nodup.of_map h.order.nodup.of_map).2
      fun b => (h'.mem b).trans (h.mem b).symm
  exact List.Perm.eq_of_pairwise (fun b b' _ _ hlt hgt => absurd hgt (Std.Asymm.asymm _ _ hlt))
    (List.pairwise_map.1 h'.order) (List.pairwise_map.1 h.order) hperm

theorem preorder_literal {text : String} (h : a.get? id = some (.literal text)) :
    a.Preorder id [] where
  mem b := by
    have hnone (other : Nat) : ¬ a.follow? id b.path = some other := fun hpath =>
      b.path_ne_nil ((follow?_literal_iff h).1 hpath).1
    simp [Option.bind_eq_some_iff, hnone]
  order := .nil

/-- The branches that start on one side. -/
theorem mem_family {side : Side} {child : Nat} {node : Node} {below : List Branch}
    (hchild : a.child? id side = some child) (hnode : a.get? child = some node)
    (hbelow : a.Preorder child below) {b : Branch} :
    b ∈ Branch.family side node below ↔
      b.path.head? = some side ∧ (a.follow? id b.path).bind a.get? = some b.node := by
  rw [Branch.family, List.mem_cons, List.mem_map]
  rcases b.cases_under with ⟨side', node', rfl⟩ | ⟨side', b, rfl⟩
  · -- The branch to the child itself.
    have hnot : ¬ ∃ b ∈ below, b.under side = ⟨[], side', node'⟩ := by simp [Branch.under]
    simp only [hnot, or_false, Branch.path, List.nil_append, List.head?_cons, Option.some.injEq,
      Branch.mk.injEq, true_and]
    refine and_congr_right fun hside => ?_
    rw [hside, follow?_cons hchild, follow?, Option.bind_some, hnode, Option.some.injEq, eq_comm]
  · have hunder : (∃ b' ∈ below, b'.under side = b.under side') ↔ side' = side ∧ b ∈ below := by
      simp only [Branch.under_inj]
      constructor
      · rintro ⟨_, hb, rfl, rfl⟩
        exact ⟨rfl, hb⟩
      · rintro ⟨rfl, hb⟩
        exact ⟨b, hb, rfl, rfl⟩
    have hne : b.under side' ≠ ⟨[], side, node⟩ := by simp [Branch.under]
    rw [hunder, Branch.path_under, List.head?_cons, Option.some.injEq, hbelow.mem]
    simp only [hne, false_or]
    refine and_congr_right fun hside => ?_
    rw [hside, follow?_cons hchild]
    rfl

theorem order_family {side : Side} {child : Nat} {node : Node} {below : List Branch}
    (hbelow : a.Preorder child below) :
    ((Branch.family side node below).map Branch.path).Pairwise (List.Lex Side.Before) := by
  have hmap : (Branch.family side node below).map Branch.path =
      [side] :: (below.map Branch.path).map (side :: ·) := by
    simp [Branch.family, Branch.path, Branch.under]
  rw [hmap, List.pairwise_cons, List.pairwise_map]
  refine ⟨fun path hpath => ?_, hbelow.order.imp .cons⟩
  simp only [List.map_map, List.mem_map, Function.comp_apply] at hpath
  obtain ⟨b, -, rfl⟩ := hpath
  obtain ⟨step, steps, hb⟩ := List.exists_cons_of_ne_nil b.path_ne_nil
  rw [hb]
  exact .cons .nil

theorem preorder_binary {op : Operator} {left right : Nat} {l r : Node} {below after : List Branch}
    (h : a.get? id = some (.binary op left right)) (hl : a.get? left = some l)
    (hr : a.get? right = some r) (hbelow : a.Preorder left below) (hafter : a.Preorder right after) :
    a.Preorder id (Branch.family .left l below ++ Branch.family .right r after) where
  mem b := by
    obtain ⟨hleft, hright⟩ := child?_of_binary h
    have hhead : b.path.head? = some .left ∨ b.path.head? = some .right := by
      obtain ⟨step, steps, hb⟩ := List.exists_cons_of_ne_nil b.path_ne_nil
      rw [hb]
      cases step <;> simp
    rw [List.mem_append, mem_family hleft hl hbelow, mem_family hright hr hafter, ← or_and_right]
    exact and_iff_right hhead
  order := by
    obtain ⟨hleft, hright⟩ := child?_of_binary h
    rw [List.map_append, List.pairwise_append]
    refine ⟨order_family hbelow, order_family hafter, fun path hpath path' hpath' => ?_⟩
    obtain ⟨b, hb, rfl⟩ := List.mem_map.1 hpath
    obtain ⟨b', hb', rfl⟩ := List.mem_map.1 hpath'
    obtain ⟨steps, hsteps⟩ := List.head?_eq_some_iff.1 ((mem_family hleft hl hbelow).1 hb).1
    obtain ⟨steps', hsteps'⟩ := List.head?_eq_some_iff.1 ((mem_family hright hr hafter).1 hb').1
    rw [hsteps, hsteps']
    exact .rel ⟨rfl, rfl⟩

/-- The lines below a node's own line are those of its branches in preorder. -/
theorem exists_preorder (h : id < a.size) :
    ∃ branches, a.Preorder id branches ∧
      ∀ margin, (a.exprAt id h).branches margin = branches.map fun b => margin ++ b.line := by
  induction id, h using unfold_induction with
  | literal id h text hget => exact ⟨[], preorder_literal hget, fun _ => rfl⟩
  | binary id h op left right hl hr hget ihl ihr =>
    obtain ⟨below, hbelow, hlines⟩ := ihl
    obtain ⟨after, hafter, hlines'⟩ := ihr
    refine ⟨_, preorder_binary hget (a.get?_eq_node hl) (a.get?_eq_node hr) hbelow hafter,
      fun margin => ?_⟩
    rw [List.map_append, Branch.map_line_family, Branch.map_line_family, Expr.branches, hlines,
      hlines', Lookup.label_exprAt, Lookup.label_exprAt]
    rfl

theorem Preorder.lines {branches : List Branch} (hbranches : a.Preorder id branches)
    (h : id < a.size) (margin : String) :
    (a.exprAt id h).branches margin = branches.map fun b => margin ++ b.line := by
  obtain ⟨all, hall, hlines⟩ := exists_preorder h
  rw [hlines, hall.unique hbranches]

end Arena

/-! ## One margin for all lines -/

/-- Lines in a row, each closed by a line end. -/
def Text.closed (lines : List String) : String := String.join (lines.map (· ++ "\n"))

theorem Text.closed_cons (line : String) (lines : List String) :
    closed (line :: lines) = line ++ "\n" ++ closed lines := by
  rw [closed, List.map_cons, String.join_cons]
  rfl

theorem Text.closed_append (lines more : List String) :
    closed (lines ++ more) = closed lines ++ closed more := by
  rw [closed, List.map_append, String.join_append]
  rfl

namespace Lookup

open Text (closed closed_cons closed_append)

/-- The text cut to its first bytes, if they end with a character. A text of fewer bytes stays. -/
def truncate? (text : String) (size : Nat) : Option String :=
  if size ≤ text.utf8ByteSize then String.fromUTF8? (text.toUTF8.extract 0 size) else some text

/-- What has been written, and the margin for the next line. -/
structure Pen where
  written : String
  margin : String

/-- Writes a line behind the margin. -/
def Pen.line (pen : Pen) (text : String) : Pen :=
  { pen with written := pen.written ++ pen.margin ++ text ++ "\n" }

/-- Writes the line of a child, and its branches with a longer margin, which is then cut back to
the size it had. -/
def writeFamily? (nodes : Array Node) (below : Pen → Option Pen) (side : Side) (child : Nat)
    (pen : Pen) : Option Pen := do
  let node ← nodes[child]?
  let own := pen.line (side.fork ++ node.label)
  let last ← below { own with margin := own.margin ++ side.rule }
  return { last with margin := ← truncate? last.margin pen.margin.utf8ByteSize }

/-- Writes the lines below a node's own line. -/
def writeBelow? (nodes : Array Node) : (rounds id : Nat) → Pen → Option Pen
  | 0, _, _ => none
  | rounds + 1, id, pen => do
    match ← nodes[id]? with
    | .literal _ => return pen
    | .binary _ left right =>
      let pen ← writeFamily? nodes (writeBelow? nodes rounds left) .left left pen
      writeFamily? nodes (writeBelow? nodes rounds right) .right right pen

/-- Writes the drawing of the node with number `root`. -/
def write? (nodes : Array Node) (rounds root : Nat) : Option String := do
  let node ← nodes[root]?
  let pen ← writeBelow? nodes rounds root ⟨node.label ++ "\n", ""⟩
  return pen.written

/-- What was put at the end of a text is cut off again, however many bytes its characters have. -/
theorem truncate?_append (text more : String) :
    truncate? (text ++ more) text.utf8ByteSize = some text := by
  have hle : text.utf8ByteSize ≤ (text ++ more).utf8ByteSize := by
    rw [String.utf8ByteSize_append]
    omega
  have hcut : (text ++ more).toUTF8.extract 0 text.utf8ByteSize = text.toUTF8 := by
    rw [String.toUTF8, String.toByteArray_append]
    exact ByteArray.extract_append_eq_left rfl
  rw [truncate?, if_pos hle, hcut, String.fromUTF8?, String.toUTF8_eq_toByteArray,
    dif_pos text.isValidUTF8]
  rfl

variable {a : Arena}

theorem writeFamily?_eq (side : Side) (lines : String → List String) {child : Nat}
    (hid : child < a.size) {below : Pen → Option Pen}
    (hbelow : ∀ pen, below pen =
      some { pen with written := pen.written ++ closed (lines pen.margin) }) (pen : Pen) :
    writeFamily? a.nodes below side child pen = some { pen with
      written := pen.written ++
        closed ((pen.margin ++ side.fork ++ (a.node child hid).label) ::
          lines (pen.margin ++ side.rule)) } := by
  have hnode : a.nodes[child]? = some (a.node child hid) := a.get?_eq_node hid
  simp only [writeFamily?, bind, Option.bind, hnode, hbelow, Pen.line, truncate?_append,
    closed_cons, String.append_assoc]
  rfl

/-- The lines below a node's own line are written behind the margin, and the margin is left as it
was found. -/
theorem writeBelow?_eq {rounds id : Nat} (hid : id < a.size) (h : id < rounds) (pen : Pen) :
    writeBelow? a.nodes rounds id pen = some { pen with
      written := pen.written ++ closed ((a.exprAt id hid).branches pen.margin) } := by
  induction id, hid using Arena.unfold_induction generalizing rounds pen with
  | literal id hid label hget =>
    have hlookup : a.nodes[id]? = some (.literal label) := hget
    obtain ⟨more, rfl⟩ := Nat.exists_eq_add_of_lt h
    rw [writeBelow?, hlookup]
    exact congrArg (fun written => some { pen with written }) String.append_empty.symm
  | binary id hid op left right hl hr hget ihl ihr =>
    have hlookup : a.nodes[id]? = some (.binary op left right) := hget
    obtain ⟨hleft, hright⟩ := Arena.children_lt hget
    obtain ⟨more, rfl⟩ := Nat.exists_eq_add_of_lt h
    have hlines := writeFamily?_eq .left (fun margin => (a.exprAt left hl).branches margin) hl
      fun pen => ihl (Nat.lt_add_right more hleft) pen
    have hlines' := writeFamily?_eq .right (fun margin => (a.exprAt right hr).branches margin) hr
      fun pen => ihr (Nat.lt_add_right more hright) pen
    simp only [writeBelow?, bind, Option.bind, hlookup, hlines, hlines', Expr.branches,
      label_exprAt, closed_append, String.append_assoc]
    rfl

theorem write?_eq (t : Tree) {rounds : Nat} (h : t.root < rounds) :
    write? t.arena.nodes rounds t.root = some t.drawing := by
  have hroot : t.arena.nodes[t.root]? = some (t.arena.node t.root t.root_lt) :=
    t.arena.get?_eq_node t.root_lt
  have hlabel := label_exprAt t.arena t.root_lt
  simp only [write?, bind, Option.bind, hroot, writeBelow?_eq t.root_lt h, ← hlabel]
  exact congrArg some (closed_cons _ _).symm

end Lookup

namespace Tree

/-- A drawing is the root's label on a line of its own, and then the lines of the branches below the
root, of which there is one list in preorder. Written with one margin for all nodes, it is the same;
and after the lines below any node the margin is what it was before them, whatever it was. -/
theorem drawing_lines (t : Tree) :
    (∃! branches, t.arena.Preorder t.root branches) ∧
    (∀ branches, t.arena.Preorder t.root branches →
      t.drawing = (t.arena.node t.root t.root_lt).label ++ "\n" ++
        Text.closed (branches.map Branch.line)) ∧
    (∀ more, Lookup.write? t.arena.nodes (t.root + 1 + more) t.root = some t.drawing) ∧
    ∀ id branches more (pen : Lookup.Pen), id < t.nodeCount → t.arena.Preorder id branches →
      Lookup.writeBelow? t.arena.nodes (id + 1 + more) id pen = some { pen with
        written := pen.written ++ Text.closed (branches.map fun b => pen.margin ++ b.line) } := by
  obtain ⟨branches, hbranches, -⟩ := Arena.exists_preorder t.root_lt
  refine ⟨⟨branches, hbranches, fun _ h => hbranches.unique h⟩, fun branches h => ?_,
    fun more => Lookup.write?_eq t (by omega), fun id branches more pen hid h => ?_⟩
  · have hlines := h.lines t.root_lt ""
    simp only [String.empty_append] at hlines
    rw [← Lookup.label_exprAt, ← hlines, ← Text.closed_cons]
    rfl
  · rw [Lookup.writeBelow?_eq hid (by omega), h.lines hid]

/-- A node that is both children of another, behind an empty margin and behind one whose characters
have several bytes. -/
theorem drawing_lines_shared :
    let calls : List Arena.Call := [.literal "é", .binary .add 0 0, .binary .mul 1 0]
    let leaf : Node := .literal "é"
    let sum : Node := .binary .add 0 0
    let branches : List Branch :=
      [⟨[], .left, sum⟩, ⟨[.left], .left, leaf⟩, ⟨[.left], .right, leaf⟩, ⟨[], .right, leaf⟩]
    ∃ t, ofArena? (Arena.empty.run calls).2 2 = some t ∧ t.arena.Preorder t.root branches ∧
      t.drawing = "*\n├── +\n│   ├── é\n│   └── é\n└── é\n" ∧ 1 < t.nodeCount ∧
      t.arena.Preorder 1 [⟨[], .left, leaf⟩, ⟨[], .right, leaf⟩] ∧
      Lookup.writeBelow? t.arena.nodes 2 1 ⟨"", "│   "⟩ =
        some ⟨"│   ├── é\n│   └── é\n", "│   "⟩ := by
  intro calls leaf sum branches
  let a := (Arena.empty.run calls).2
  have hroot : 2 < a.size := by decide
  have hleaf : a.get? 0 = some leaf := by decide
  have hsum : a.get? 1 = some sum := by decide
  have hproduct : a.get? 2 = some (.binary .mul 1 0) := by decide
  have hbelow : a.Preorder 1 [⟨[], .left, leaf⟩, ⟨[], .right, leaf⟩] :=
    Arena.preorder_binary hsum hleaf hleaf (Arena.preorder_literal hleaf)
      (Arena.preorder_literal hleaf)
  have hbranches : a.Preorder 2 branches :=
    Arena.preorder_binary hproduct hsum hleaf hbelow (Arena.preorder_literal hleaf)
  have hlines : Text.closed (branches.map Branch.line) =
      "├── +\n│   ├── é\n│   └── é\n└── é\n" := by decide +kernel
  have hbehind : Text.closed (([⟨[], .left, leaf⟩, ⟨[], .right, leaf⟩] : List Branch).map
      fun b => "│   " ++ b.line) = "│   ├── é\n│   └── é\n" := by decide +kernel
  obtain ⟨-, hdrawing, -, hwritten⟩ := drawing_lines ⟨a, 2, hroot⟩
  have hdrawn := hdrawing branches hbranches
  have hwrote := hwritten 1 _ 0 ⟨"", "│   "⟩ (Nat.lt_of_succ_lt hroot) hbelow
  rw [hlines] at hdrawn
  rw [hbehind] at hwrote
  exact ⟨⟨a, 2, hroot⟩, dif_pos hroot, hbranches, hdrawn, Nat.lt_of_succ_lt hroot, hbelow, hwrote⟩

end Tree

end Calculator
