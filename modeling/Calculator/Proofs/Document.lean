import Mathlib
import Calculator.Diagram
import Calculator.Proofs.Answers
import Calculator.Proofs.Columns
import Calculator.Proofs.Pruning
import Calculator.Proofs.Tags

/-!
# The document of a diagram

The document of a tree has, between its first and its last line, a line for each edge below a node
that the root reaches and one for each such node, in the order of the numbers from the highest down
(`Tree.edges_eq`, `Tree.discs_eq`). A number's text and a label's text have no tags, whatever the
label is, so that the tags in the document can be counted line by line (`Diagram.occurrences_svg`).
-/

namespace Calculator

open Text (occurrences closed)
open Text.Xml

/-- The text of a number has no tag. -/
theorem Binary64.inert_text (v : Binary64) : Inert v.text := by
  cases v with
  | nan => decide
  | signed negative m =>
    rw [text]
    split
    · split <;> decide
    · split
      · decide
      · rw [Inert, Decimal.text, String.toList_ofList]
        exact fun hmem => absurd (Decimal.mem_chars hmem) (by decide)

namespace Diagram

/-! ## Lines as elements -/

/-- The opening tag of a document for a canvas of a size. -/
def opening (width height : Binary64) : String :=
  openTag .svg [("xmlns", "http://www.w3.org/2000/svg"),
    ("viewBox", "0 0 " ++ width.text ++ " " ++ height.text), ("width", width.text),
    ("height", height.text)] ++ ">"

/-- A line from the lower end of the disc at one place to the upper end of the disc at another. -/
def lineBetween (parent child : Point) (colour : String) : String :=
  "  " ++ emptyElement .line [("x1", parent.x.text), ("y1", (parent.y + 18).text),
    ("x2", child.x.text), ("y2", (child.y - 18).text), ("stroke", colour), ("stroke-width", "1.5")]

/-- A disc at a place, with its label. -/
def labelledDisc (centre : Point) (label : String) : String :=
  "  " ++ element .g [] (
    emptyElement .circle [("cx", centre.x.text), ("cy", centre.y.text), ("r", "18"),
      ("fill", "#07192a"), ("stroke", "#88ffd1"), ("stroke-width", "1")] ++
    element .text [("x", centre.x.text), ("y", (centre.y + 5).text), ("fill", "#e6eef6"),
      ("font-size", "12"), ("text-anchor", "middle")] (encode label))

/-- The lines from a node to its operands, the left one first. -/
def linesFrom (place : Nat → Point) (id : Nat) : Node → List String
  | .literal _ => []
  | .binary _ left right => [lineBetween (place id) (place left) "#57e6b6",
      lineBetween (place id) (place right) "#60a5fa"]

theorem header_eq (d : Diagram) : d.header = opening d.width d.height := by
  unfold header opening
  generalize d.width.text = w
  generalize d.height.text = h
  simp [openTag, Tag.start, Tag.name, ← String.toList_inj]

theorem edgeElement_eq (e : Edge) : edgeElement e =
    lineBetween e.parent e.child (if e.isLeft then "#57e6b6" else "#60a5fa") := by
  show _ = lineBetween e.parent e.child (if e.isLeft then leftColour else rightColour)
  unfold edgeElement lineBetween
  rw [show (18 : Binary64) = radius from rfl]
  generalize e.parent.x.text = x₁
  generalize (e.parent.y + radius).text = y₁
  generalize e.child.x.text = x₂
  generalize (e.child.y - radius).text = y₂
  simp [emptyElement, openTag, Tag.start, Tag.name, ← String.toList_inj]

theorem text_radius : radius.text = "18" := by decide +kernel

theorem discElement_eq (d : Disc) : discElement d = labelledDisc d.centre d.label := by
  unfold discElement labelledDisc
  rw [text_radius, show (5 : Binary64) = labelDrop from rfl]
  generalize d.centre.x.text = x
  generalize d.centre.y.text = y
  generalize (d.centre.y + labelDrop).text = base
  simp [element, emptyElement, openTag, Tag.start, Tag.name, ← String.toList_inj]

/-! ## Tags in lines -/

theorem occurrences_opening (tag : Tag) (width height : Binary64) :
    occurrences tag.start (opening width height) = if tag = .svg then 1 else 0 := by
  have hend : ">".toList = ['>'] := by decide
  rw [opening, occurrences_start_append tag _ hend (by decide), occurrences_openTag,
    occurrences_inert tag (by decide), Nat.add_zero]
  simp +decide [inert_append, Binary64.inert_text]

theorem occurrences_lineBetween (tag : Tag) (parent child : Point) {colour : String}
    (h : Inert colour) :
    occurrences tag.start (lineBetween parent child colour) = if tag = .line then 1 else 0 := by
  rw [lineBetween, occurrences_inert_append tag (by decide), occurrences_emptyElement]
  simp +decide [Binary64.inert_text, h]

/-- Whatever the label is, there are the tags of the group, the circle and the text alone. -/
theorem occurrences_labelledDisc (tag : Tag) (centre : Point) (label : String) :
    occurrences tag.start (labelledDisc centre label) =
      if tag = .g ∨ tag = .circle ∨ tag = .text then 1 else 0 := by
  obtain ⟨cs, hcs⟩ : ∃ cs, (element .text [("x", centre.x.text), ("y", (centre.y + 5).text),
      ("fill", "#e6eef6"), ("font-size", "12"), ("text-anchor", "middle")]
      (encode label)).toList = '<' :: cs := by
    simp [element, openTag, Tag.start]
  rw [labelledDisc, occurrences_inert_append tag (by decide), occurrences_element,
    occurrences_start_append tag _ hcs (by decide), occurrences_emptyElement, occurrences_element,
    occurrences_inert tag (inert_encode label)]
  · cases tag <;> decide
  all_goals simp +decide [Binary64.inert_text]

/-- How often an element of each kind stands in a document. -/
theorem occurrences_svg (d : Diagram) (tag : Tag) :
    occurrences tag.start d.svg = (if tag = .svg then 1 else 0) +
      d.edges.length * (if tag = .line then 1 else 0) +
      d.discs.length * (if tag = .g ∨ tag = .circle ∨ tag = .text then 1 else 0) := by
  have hlineEnd : '\n' ∉ '<' :: tag.name.toList := by cases tag <;> decide
  have hclose : occurrences tag.start "</svg>" = 0 := by cases tag <;> decide
  have hedge (e : Edge) : occurrences tag.start (edgeElement e) = if tag = .line then 1 else 0 := by
    rw [edgeElement_eq, occurrences_lineBetween tag]
    split <;> decide
  have hdisc (disc : Disc) : occurrences tag.start (discElement disc) =
      if tag = .g ∨ tag = .circle ∨ tag = .text then 1 else 0 := by
    rw [discElement_eq, occurrences_labelledDisc]
  have hheader : occurrences tag.start d.header = if tag = .svg then 1 else 0 := by
    rw [header_eq, occurrences_opening]
  show occurrences tag.start (closed d.svgLines) = _
  rw [Text.occurrences_closed tag.toList_start hlineEnd, svgLines]
  simp only [List.cons_append, List.map_cons, List.map_append, List.map_map, Function.comp_def,
    hheader, hedge, hdisc, hclose, List.map_const', List.map_nil, List.sum_cons, List.sum_append,
    List.sum_replicate, smul_eq_mul, List.sum_nil]
  omega

end Diagram

/-! ## The nodes that are shown -/

/-- Of the numbers that a subtree fills, one more than half are leaves. -/
theorem Arena.Fills.two_mul_leaves {a : Arena} {low id : Nat} (h : a.Fills low id) :
    low + 2 * (a.leavesBelow (id + 1) - a.leavesBelow low) = id + 2 := by
  induction h with
  | literal hget =>
    rw [leavesBelow_literal hget]
    omega
  | binary hl hr hget ihl ihr =>
    have hlpos := hl.leavesBelow_lt
    have hrpos := hr.leavesBelow_lt
    rw [leavesBelow_binary hget]
    omega

namespace Tree

variable {t : Tree}

/-- What is shown of the nodes from the highest number down is shown of those that the root reaches,
if nothing is shown of the others. -/
theorem flatMap_shown {α : Type} {g : Fin t.arena.size → List α} {g' : Nat → List α}
    (hkept : ∀ id (hlt : id < t.arena.size), id ∈ t.kept → g ⟨id, hlt⟩ = g' id)
    (hother : ∀ id (hlt : id < t.arena.size), ¬ t.arena.Reaches t.root id → g ⟨id, hlt⟩ = []) :
    (List.finRange t.arena.size).reverse.flatMap g = t.kept.reverse.flatMap g' := by
  rw [flatMap_finRange]
  conv => rhs; rw [kept, ← List.filter_reverse]
  induction (List.range t.arena.size).reverse with
  | nil => rfl
  | cons id ids ih =>
    rw [List.flatMap_cons, ih, List.filter_cons]
    by_cases hreach : t.arena.Reaches t.root id
    · have hid := mem_kept.2 hreach
      have hlt := t.kept_lt id hid
      rw [if_pos (decide_eq_true ((Arena.mem_walk t.root_lt).2 hreach)), dif_pos hlt,
        hkept id hlt hid, List.flatMap_cons]
    · have hnone : (if h : id < t.arena.size then g ⟨id, h⟩ else []) = [] := by
        split
        · exact hother id _ hreach
        · rfl
      rw [if_neg (by simpa [Arena.mem_walk] using hreach), hnone, List.nil_append]

theorem get_positions_eq_iff {id : Nat} (h : id < t.arena.size) {place : Option Point} :
    (Layout.positions t).get ⟨id, h⟩ = place ↔ (Layout.positions t)[id]? = some place := by
  rw [Vector.getElem?_eq_getElem h, Option.some.injEq]
  rfl

theorem get_positions_eq_none {id : Nat} (h : id < t.arena.size)
    (hreach : ¬ t.arena.Reaches t.root id) : (Layout.positions t).get ⟨id, h⟩ = none := by
  rw [← Layout.hasPlace_positions_iff] at hreach
  cases hplace : (Layout.positions t).get ⟨id, h⟩ with
  | none => rfl
  | some place => exact absurd ⟨place, (get_positions_eq_iff h).1 hplace⟩ hreach

/-- All nodes that the root reaches have a place. -/
theorem exists_shown (t : Tree) : ∃ (node : Nat → Node) (place : Nat → Point), ∀ id ∈ t.kept,
    t.arena.get? id = some (node id) ∧ (Layout.positions t)[id]? = some (some (place id)) := by
  have hshown (id : Nat) : ∃ (node : Node) (place : Point), id ∈ t.kept →
      t.arena.get? id = some node ∧ (Layout.positions t)[id]? = some (some place) := by
    by_cases hid : id ∈ t.kept
    · obtain ⟨place, hplace⟩ := Layout.hasPlace_positions_iff.2 (mem_kept.1 hid)
      exact ⟨_, place, fun _ => ⟨t.arena.get?_eq_node (t.kept_lt id hid), hplace⟩⟩
    · exact ⟨.literal "", Layout.rootPlace t, fun h => absurd h hid⟩
  choose node place h using hshown
  exact ⟨node, place, h⟩

section

variable {node : Nat → Node} {place : Nat → Point} (h : ∀ id ∈ t.kept,
  t.arena.get? id = some (node id) ∧ (Layout.positions t)[id]? = some (some (place id)))
include h

/-- Each binary node has two lines, to the places that its operands have at the end. -/
theorem edges_eq : (Diagram.ofTree t).edges.map Diagram.edgeElement =
    t.kept.reverse.flatMap fun id => Diagram.linesFrom place id (node id) := by
  show List.map _ ((List.finRange t.arena.size).reverse.flatMap _) = _
  rw [List.map_flatMap]
  refine flatMap_shown (fun id hlt hid => ?_) fun id hlt hreach => ?_
  · obtain ⟨hget, hplace⟩ := h id hid
    cases hnode : node id with
    | literal text =>
      rw [hnode] at hget
      have hnone : Diagram.edgesFrom t.arena (Layout.positions t) ⟨id, hlt⟩ = [] :=
        Diagram.edgesFrom_literal hget
      rw [hnone]
      rfl
    | binary op left right =>
      rw [hnode] at hget
      -- The root reaches the operands too, so that no line is left out.
      obtain ⟨hleft, hright⟩ := children_mem_kept hid hget
      have hl := t.kept_lt left hleft
      have hr := t.kept_lt right hright
      have hplacel : (Layout.positions t)[left] = some (place left) :=
        (get_positions_eq_iff hl).2 (h left hleft).2
      have hplacer : (Layout.positions t)[right] = some (place right) :=
        (get_positions_eq_iff hr).2 (h right hright).2
      rw [Diagram.edgesFrom_binary ((get_positions_eq_iff hlt).2 hplace) hget hl hr, hplacel,
        hplacer]
      simp [Diagram.edgeElement_eq, Diagram.linesFrom]
  · rw [Diagram.edgesFrom_none (get_positions_eq_none hlt hreach), List.map_nil]

/-- Each node has one disc. -/
theorem discs_eq : (Diagram.ofTree t).discs.map Diagram.discElement =
    t.kept.reverse.map fun id => Diagram.labelledDisc (place id) (node id).label := by
  show List.map _ ((List.finRange t.arena.size).reverse.filterMap _) = _
  rw [List.filterMap_eq_flatMap_toList, List.map_flatMap, List.map_eq_flatMap]
  refine flatMap_shown (fun id hlt hid => ?_) fun id hlt hreach => ?_
  · obtain ⟨hget, hplace⟩ := h id hid
    obtain ⟨_, hnode⟩ := Arena.get?_eq_some_iff.1 hget
    rw [Diagram.disc?, (get_positions_eq_iff hlt).2 hplace, hnode]
    simp [Diagram.discElement_eq]
  · rw [Diagram.disc?, get_positions_eq_none hlt hreach]
    rfl

end

/-! ## How many there are -/

theorem ncard_kept (t : Tree) (p : Nat → Prop) [DecidablePred p] :
    {id | t.arena.Reaches t.root id ∧ p id}.ncard = t.kept.countP (p ·) := by
  have hset : {id | t.arena.Reaches t.root id ∧ p id} = ↑(t.kept.filter (p ·)).toFinset := by
    ext id
    simp [mem_kept]
  have hnodup : (t.kept.filter (p ·)).Nodup := (t.pairwise_kept.imp Nat.ne_of_lt).filter _
  rw [hset, Set.ncard_coe_finset, List.toFinset_card_of_nodup hnodup, List.countP_eq_length_filter]

theorem length_discs (t : Tree) :
    (Diagram.ofTree t).discs.length = {id | t.arena.Reaches t.root id}.ncard := by
  obtain ⟨node, place, h⟩ := t.exists_shown
  have hlength := congrArg List.length (discs_eq h)
  rw [List.length_map, List.length_map, List.length_reverse] at hlength
  rw [hlength, ncard_reaches, nodeCount_prune]

theorem length_edges (t : Tree) : (Diagram.ofTree t).edges.length =
    2 * {id | t.arena.Reaches t.root id ∧ ¬ t.arena.IsLeaf id}.ncard := by
  obtain ⟨node, place, h⟩ := t.exists_shown
  have hlines (id : Nat) (hid : id ∈ t.kept) : (Diagram.linesFrom place id (node id)).length =
      if t.arena.IsLeaf id then 0 else 2 := by
    simp only [Arena.isLeaf_iff (h id hid).1]
    cases node id <;> rfl
  have hlength := congrArg List.length (edges_eq h)
  rw [List.length_map, List.length_flatMap, List.map_reverse, List.sum_reverse,
    List.map_congr_left hlines] at hlength
  rw [hlength, ncard_kept]
  induction t.kept with
  | nil => rfl
  | cons id ids ih =>
    rw [List.map_cons, List.sum_cons, ih, List.countP_cons]
    by_cases hleaf : t.arena.IsLeaf id
    · rw [if_pos hleaf, if_neg (by simpa using hleaf), Nat.zero_add, Nat.add_zero]
    · rw [if_neg hleaf, if_pos (by simpa using hleaf)]
      omega

/-- In a tree that is built all nodes are shown, and one fewer has a parent. -/
theorem ncard_of_ofPostfix {tokens : List Token} (h : ofPostfix tokens = .ok t) :
    {id | t.arena.Reaches t.root id}.ncard = t.nodeCount ∧
      2 * {id | t.arena.Reaches t.root id ∧ ¬ t.arena.IsLeaf id}.ncard = t.nodeCount - 1 := by
  obtain ⟨-, hfills, hroot⟩ := fills_of_ofPostfix h
  have hall : {id | t.arena.Reaches t.root id}.ncard = t.nodeCount := by
    have hset : {id | t.arena.Reaches t.root id} = ↑(Finset.range t.nodeCount) := by
      ext id
      simp only [hfills.reaches_iff, Set.mem_ofPred_eq, Finset.coe_range, Set.mem_Iio]
      omega
    rw [hset, Set.ncard_coe_finset, Finset.card_range]
  have hinner : {id | t.arena.Reaches t.root id ∧ ¬ t.arena.IsLeaf id} =
      {id | t.arena.Reaches t.root id} \ t.arena.leavesOf t.root := by
    ext id
    simp only [Arena.leavesOf, Set.mem_ofPred_eq, Set.mem_sdiff]
    tauto
  have hsub : t.arena.leavesOf t.root ⊆ {id | t.arena.Reaches t.root id} := fun id hid => hid.2
  have hleaves := hfills.two_mul_leaves
  refine ⟨hall, ?_⟩
  rw [hinner, Set.ncard_sdiff hsub ((t.arena.finite_reaches t.root).subset hsub), hall,
    hfills.ncard_leavesOf]
  omega

/-- The document of a tree has the canvas in its first line; then the two lines below each binary
node that the root reaches, from the lower end of its disc to the upper end of each operand's, the
left one first; then the disc of each node that the root reaches, all at the places that the nodes
have at the end and in the order of the numbers from the highest down; and at last the closing tag.
So there is one circle for each node and there are two lines for each binary node that the root
reaches, whatever the labels are; in a tree that is built, one line for each node but the root. -/
theorem svg_document (t : Tree) :
    (∃ (ids : List Nat) (node : Nat → Node) (place : Nat → Point), ids.Pairwise (· > ·) ∧
      (∀ id, id ∈ ids ↔ t.arena.Reaches t.root id) ∧
      (∀ id ∈ ids, t.arena.get? id = some (node id) ∧
        (Layout.positions t)[id]? = some (some (place id))) ∧
      t.svg = closed (Diagram.opening (Layout.canvasWidth t) (Layout.canvasHeight t) ::
        ids.flatMap (fun id => Diagram.linesFrom place id (node id)) ++
        ids.map (fun id => Diagram.labelledDisc (place id) (node id).label) ++ ["</svg>"])) ∧
    occurrences "<circle" t.svg = {id | t.arena.Reaches t.root id}.ncard ∧
    occurrences "<line" t.svg =
      2 * {id | t.arena.Reaches t.root id ∧ ¬ t.arena.IsLeaf id}.ncard ∧
    ∀ tokens, ofPostfix tokens = .ok t →
      occurrences "<circle" t.svg = t.nodeCount ∧ occurrences "<line" t.svg = t.nodeCount - 1 := by
  have hcircle : occurrences "<circle" t.svg = {id | t.arena.Reaches t.root id}.ncard := by
    have hstart : Tag.circle.start = "<circle" := by decide
    have hcount := (Diagram.ofTree t).occurrences_svg .circle
    rw [hstart, length_discs] at hcount
    simpa [svg] using hcount
  have hline : occurrences "<line" t.svg =
      2 * {id | t.arena.Reaches t.root id ∧ ¬ t.arena.IsLeaf id}.ncard := by
    have hstart : Tag.line.start = "<line" := by decide
    have hcount := (Diagram.ofTree t).occurrences_svg .line
    rw [hstart, length_edges] at hcount
    simpa [svg] using hcount
  refine ⟨?_, hcircle, hline, fun tokens hbuilt => ?_⟩
  · obtain ⟨node, place, hshown⟩ := t.exists_shown
    refine ⟨t.kept.reverse, node, place, List.pairwise_reverse.2 t.pairwise_kept, fun id => ?_,
      fun id hid => hshown id (List.mem_reverse.1 hid), ?_⟩
    · rw [List.mem_reverse, mem_kept]
    · show closed (Diagram.svgLines _) = _
      rw [Diagram.svgLines, Diagram.header_eq, edges_eq hshown, discs_eq hshown]
      rfl
  · obtain ⟨hall, hinner⟩ := ncard_of_ofPostfix hbuilt
    exact ⟨hcircle.trans hall, hline.trans hinner⟩

/-- A node with three parents whose label is a tag, and a tree that is built. -/
theorem svg_document_tags :
    let calls : List Arena.Call :=
      [.literal "<circle", .binary .add 0 0, .binary .mul 1 0, .literal "</svg>"]
    let tokens := [.number "1", .number "2", .operator .add]
    (∃ t, ofArena? (Arena.empty.run calls).2 2 = some t ∧
      occurrences "<circle" t.svg = {id | t.arena.Reaches t.root id}.ncard ∧
      occurrences "<line" t.svg =
        2 * {id | t.arena.Reaches t.root id ∧ ¬ t.arena.IsLeaf id}.ncard) ∧
    ∃ t, ofPostfix tokens = .ok t ∧ occurrences "<circle" t.svg = 3 ∧
      occurrences "<line" t.svg = 2 := by
  intro calls tokens
  have hroot : 2 < (Arena.empty.run calls).2.size := by decide
  obtain ⟨-, hcircle, hline, -⟩ := svg_document ⟨_, 2, hroot⟩
  obtain ⟨-, -, -, hbuilt⟩ := svg_document ⟨(Arena.empty.run [.literal "1", .literal "2",
    .binary .add 0 1]).2, 2, by decide⟩
  exact ⟨⟨_, dif_pos hroot, hcircle, hline⟩, _, rfl, hbuilt tokens rfl⟩

end Tree

end Calculator
