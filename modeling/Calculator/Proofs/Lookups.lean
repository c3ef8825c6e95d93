import Mathlib
import Calculator.Diagram
import Calculator.Drawing
import Calculator.Evaluation

/-!
# Lookups that stay inside

The readers of a tree once more, over any row of nodes: each lookup may find nothing, and a walk
down the children makes no more rounds than it is given. What cannot be read so is `none`. Over the
nodes of an arena nothing is missing: each of these readers gives what the reader of the tree gives
(`depth?_eq`, `evaluate?_eq`, `drawing?_eq`, `svg?_eq`), and a walk from a node ends after at most
one round more than the node's number, since it goes to smaller numbers only.
-/

namespace Calculator.Lookup

/-! ## Readers that may find nothing -/

section

variable {α : Type} (literal : String → α) (binary : Operator → α → α → α)

/-- The value of a node, found from its children's values among those found so far. -/
def combine? (found : Array α) : Node → Option α
  | .literal text => some (literal text)
  | .binary op left right => do
    let x ← found[left]?
    let y ← found[right]?
    return binary op x y

/-- The values of all nodes, found in one pass. -/
def values? (nodes : List Node) : Option (Array α) :=
  nodes.foldlM (fun found node => (combine? literal binary found node).map found.push) #[]

end

/-- The row with another value at a place that it has. -/
def set? {α : Type} (row : Array α) (id : Nat) (x : α) : Option (Array α) :=
  if h : id < row.size then some (row.set id x) else none

/-- The depth of the node with number `root`. -/
def depth? (nodes : Array Node) (root : Nat) : Option Nat := do
  (← values? (fun _ => 1) (fun _ left right => 1 + max left right) nodes.toList)[root]?

/-- The value of a node by a walk down its children, the left one first; a bad literal ends it. -/
def evaluate? (nodes : Array Node) : (rounds id : Nat) → Option (Except LiteralError Binary64)
  | 0, _ => none
  | rounds + 1, id => do
    match ← nodes[id]? with
    | .literal text => return Literal.value text
    | .binary op left right =>
      match ← evaluate? nodes rounds left with
      | .error error => return .error error
      | .ok x =>
        match ← evaluate? nodes rounds right with
        | .error error => return .error error
        | .ok y => return .ok (op.apply x y)

/-- The lines below a node's own line, behind a margin. -/
def branches? (nodes : Array Node) : (rounds id : Nat) → String → Option (List String)
  | 0, _, _ => none
  | rounds + 1, id, margin => do
    match ← nodes[id]? with
    | .literal _ => return []
    | .binary _ left right =>
      let leftNode ← nodes[left]?
      let below ← branches? nodes rounds left (margin ++ "│   ")
      let rightNode ← nodes[right]?
      let last ← branches? nodes rounds right (margin ++ "    ")
      return (margin ++ "├── " ++ leftNode.label) :: below ++
        (margin ++ "└── " ++ rightNode.label) :: last

/-- The text drawing of the node with number `root`. -/
def drawing? (nodes : Array Node) (rounds root : Nat) : Option String := do
  let node ← nodes[root]?
  let below ← branches? nodes rounds root ""
  return String.join ((node.label :: below).map (· ++ "\n"))

/-- Places the operands of one node, if it is a binary node with a place. -/
def placeOperands? (nodes : Array Node) (widths : Array Binary64) (id : Nat)
    (places : Array (Option Point)) : Option (Array (Option Point)) := do
  match ← places[id]?, ← nodes[id]? with
  | some parent, .binary _ left right =>
    let (leftPlace, rightPlace) := Layout.operandPlaces parent (← widths[left]?) (← widths[right]?)
    set? (← set? places left (some leftPlace)) right (some rightPlace)
  | _, _ => return places

/-- Places the operands of all nodes below `count`, the highest number first. -/
def placeBelow? (nodes : Array Node) (widths : Array Binary64) :
    (count : Nat) → Array (Option Point) → Option (Array (Option Point))
  | 0, places => some places
  | id + 1, places => do placeBelow? nodes widths id (← placeOperands? nodes widths id places)

/-- The places of all nodes, when the root has the given one. -/
def positions? (nodes : Array Node) (widths : Array Binary64) (root : Nat) (rootPlace : Point) :
    Option (Array (Option Point)) := do
  placeBelow? nodes widths nodes.size
    (← set? (Array.replicate nodes.size none) root (some rootPlace))

/-- The lines from one node to its operands. -/
def edgesFrom? (nodes : Array Node) (places : Array (Option Point)) (id : Nat) :
    Option (List Edge) := do
  match ← places[id]?, ← nodes[id]? with
  | some parent, .binary _ left right =>
    let leftPlace ← places[left]?
    let rightPlace ← places[right]?
    return (leftPlace.map fun child => ⟨parent, child, true⟩).toList ++
      (rightPlace.map fun child => ⟨parent, child, false⟩).toList
  | _, _ => return []

/-- The disc of a node, if it has a place. -/
def discs? (nodes : Array Node) (places : Array (Option Point)) (id : Nat) :
    Option (List Disc) := do
  match ← places[id]? with
  | none => return []
  | some centre => return [⟨centre, (← nodes[id]?).label⟩]

/-- The diagram of the node with number `root`. -/
def diagram? (nodes : Array Node) (root : Nat) : Option Diagram := do
  let widths ← values? (fun _ => Layout.nodeWidth) (fun _ => Layout.binaryWidth) nodes.toList
  let rootWidth ← widths[root]?
  let places ←
    positions? nodes widths root ⟨rootWidth / 2 + Layout.sideMargin, Layout.topMargin⟩
  let depth ← depth? nodes root
  let ids := (List.range nodes.size).reverse
  let edges ← ids.mapM (edgesFrom? nodes places)
  let discs ← ids.mapM (discs? nodes places)
  return {
    width := .max Layout.minCanvasWidth (rootWidth + 2 * Layout.sideMargin)
    height := Layout.topMargin + .ofNat depth * Layout.levelHeight + Layout.bottomMargin
    edges := edges.flatten
    discs := discs.flatten }

/-- The SVG document of the node with number `root`. -/
def svg? (nodes : Array Node) (root : Nat) : Option String :=
  (diagram? nodes root).map Diagram.svg

/-! ## One pass -/

section

variable {α : Type} (literal : String → α) (binary : Operator → α → α → α)

theorem combine?_eq {bound : Nat} (table : Vector α bound) (node : Node)
    (below : node.ChildrenBelow bound) :
    combine? literal binary table.toArray node =
      some (node.combine literal binary (fun child _ => table[child]) below) := by
  cases node with
  | literal text => rfl
  | binary op left right =>
    obtain ⟨hleft, hright⟩ := below
    have hl : table.toArray[left]? = some table[left] := by simp [hleft]
    have hr : table.toArray[right]? = some table[right] := by simp [hright]
    rw [combine?, hl, hr]
    rfl

/-- The nodes in front have the table of their values. -/
theorem foldlM_take (a : Arena) {count : Nat} (h : count ≤ a.size) :
    (a.nodes.toList.take count).foldlM
        (fun found node => (combine? literal binary found node).map found.push) #[] =
      some (a.foldTable literal binary count h).toArray := by
  induction count with
  | zero => rfl
  | succ id ih =>
    have hid : id < a.nodes.toList.length := h
    have hnode : a.nodes.toList[id] = a.node id h := rfl
    have hstep := combine?_eq literal binary (a.foldTable literal binary id (Nat.le_of_succ_le h))
      (a.node id h) (a.node_childrenBelow id h)
    rw [List.take_succ_eq_append_getElem hid, List.foldlM_append, ih (Nat.le_of_succ_le h), hnode]
    simp only [bind, Option.bind, List.foldlM_cons, List.foldlM_nil, hstep, Option.map_some, pure,
      Arena.foldTable, Vector.toArray_push]

theorem values?_eq (a : Arena) :
    values? literal binary a.nodes.toList = some (a.values literal binary).toArray := by
  have h := foldlM_take literal binary a (Nat.le_refl a.size)
  have hall : a.nodes.toList.take a.size = a.nodes.toList := List.take_length
  rwa [hall] at h

theorem values?_getElem (a : Arena) {id : Nat} (h : id < a.size) :
    (values? literal binary a.nodes.toList >>= (·[id]?)) =
      some (a.valueAt literal binary id h) := by
  rw [values?_eq]
  show (a.values literal binary).toArray[id]? = _
  rw [Vector.getElem?_toArray, Vector.getElem?_eq_getElem h]
  rfl

end

variable (t : Tree)

theorem depth?_eq : depth? t.arena.nodes t.root = some t.depth :=
  values?_getElem _ _ t.arena t.root_lt

/-- A row with a node before its children is not an arena's: they are not found. -/
example : depth? #[.binary .add 1 1, .literal "2"] 0 = none := by decide

/-! ## Walks -/

theorem evaluate?_exprAt (a : Arena) {rounds id : Nat} (hid : id < a.size) (h : id < rounds) :
    evaluate? a.nodes rounds id = some (a.exprAt id hid).evaluate := by
  induction id, hid using Arena.unfold_induction generalizing rounds with
  | literal id hid text hget =>
    have hlookup : a.nodes[id]? = some (.literal text) := hget
    obtain ⟨more, rfl⟩ := Nat.exists_eq_add_of_lt h
    rw [evaluate?, hlookup]
    rfl
  | binary id hid op left right hl hr hget ihl ihr =>
    have hlookup : a.nodes[id]? = some (.binary op left right) := hget
    obtain ⟨hleft, hright⟩ := Arena.children_lt hget
    obtain ⟨more, rfl⟩ := Nat.exists_eq_add_of_lt h
    have hlvalue := ihl (Nat.lt_add_right more hleft)
    have hrvalue := ihr (Nat.lt_add_right more hright)
    rw [evaluate?, hlookup, Expr.evaluate]
    simp only [bind, Option.bind, hlvalue, hrvalue]
    cases (a.exprAt left hl).evaluate with
    | error error => rfl
    | ok x => cases (a.exprAt right hr).evaluate <;> rfl

theorem evaluate?_eq {rounds : Nat} (h : t.root < rounds) :
    evaluate? t.arena.nodes rounds t.root = some t.evaluate := by
  rw [evaluate?_exprAt t.arena t.root_lt h, Tree.evaluate_eq]
  rfl

theorem label_exprAt (a : Arena) {id : Nat} (hid : id < a.size) :
    (a.exprAt id hid).label = (a.node id hid).label := by
  have hget := a.get?_eq_node hid
  generalize a.node id hid = node at hget
  cases node with
  | literal text => rw [a.exprAt_literal hget]; rfl
  | binary op left right =>
    obtain ⟨hleft, hright⟩ := Arena.children_lt hget
    rw [a.exprAt_binary hget hid (Nat.lt_trans hleft hid) (Nat.lt_trans hright hid)]
    rfl

theorem branches?_exprAt (a : Arena) {rounds id : Nat} (hid : id < a.size) (h : id < rounds)
    (margin : String) :
    branches? a.nodes rounds id margin = some ((a.exprAt id hid).branches margin) := by
  induction id, hid using Arena.unfold_induction generalizing rounds margin with
  | literal id hid text hget =>
    have hlookup : a.nodes[id]? = some (.literal text) := hget
    obtain ⟨more, rfl⟩ := Nat.exists_eq_add_of_lt h
    rw [branches?, hlookup]
    rfl
  | binary id hid op left right hl hr hget ihl ihr =>
    have hlookup : a.nodes[id]? = some (.binary op left right) := hget
    have hlnode : a.nodes[left]? = some (a.node left hl) := a.get?_eq_node hl
    have hrnode : a.nodes[right]? = some (a.node right hr) := a.get?_eq_node hr
    obtain ⟨hleft, hright⟩ := Arena.children_lt hget
    obtain ⟨more, rfl⟩ := Nat.exists_eq_add_of_lt h
    rw [branches?, hlookup, Expr.branches, label_exprAt a hl, label_exprAt a hr]
    simp only [bind, Option.bind, hlnode, hrnode, ihl (Nat.lt_add_right more hleft),
      ihr (Nat.lt_add_right more hright)]
    rfl

theorem drawing?_eq {rounds : Nat} (h : t.root < rounds) :
    drawing? t.arena.nodes rounds t.root = some t.drawing := by
  have hroot : t.arena.nodes[t.root]? = some (t.arena.node t.root t.root_lt) :=
    t.arena.get?_eq_node t.root_lt
  have hlabel := label_exprAt t.arena t.root_lt
  simp only [drawing?, bind, Option.bind, hroot, branches?_exprAt t.arena t.root_lt h, ← hlabel]
  rfl

/-! ## Places -/

theorem set?_toArray {α : Type} {size : Nat} (row : Vector α size) {id : Nat} (h : id < size)
    (x : α) : set? row.toArray id x = some (row.set id x).toArray := by
  have hid : id < row.toArray.size := by rwa [Vector.size_toArray]
  rw [set?, dif_pos hid]
  rfl

section

variable (a : Arena) (widths : Vector Binary64 a.size) (places : Vector (Option Point) a.size)

theorem placeOperands?_eq {id : Nat} (h : id < a.size) :
    placeOperands? a.nodes widths.toArray id places.toArray =
      some (Layout.placeOperands a widths id h places).toArray := by
  have hplace : places.toArray[id]? = some places[id] := by simp [h]
  have hget := a.get?_eq_node h
  generalize a.node id h = node at hget
  have hlookup : a.nodes[id]? = some node := hget
  rw [placeOperands?, hplace, hlookup]
  cases hparent : places[id] with
  | none =>
    rw [Layout.placeOperands_none hparent]
    rfl
  | some parent =>
    cases node with
    | literal text =>
      rw [Layout.placeOperands_literal hget]
      rfl
    | binary op left right =>
      obtain ⟨hleft, hright⟩ := Arena.children_lt hget
      have hlsize := Nat.lt_trans hleft h
      have hrsize := Nat.lt_trans hright h
      have hl : widths.toArray[left]? = some widths[left] := by simp [hlsize]
      have hr : widths.toArray[right]? = some widths[right] := by simp [hrsize]
      rw [Layout.placeOperands_binary hparent hget hlsize hrsize]
      simp only [bind, Option.bind, hl, hr, set?_toArray _ hlsize, set?_toArray _ hrsize]

theorem placeBelow?_eq {count : Nat} (h : count ≤ a.size) :
    placeBelow? a.nodes widths.toArray count places.toArray =
      some (Layout.placeBelow a widths count h places).toArray := by
  induction count generalizing places with
  | zero => rfl
  | succ id ih =>
    rw [placeBelow?, placeOperands?_eq a widths places h]
    exact ih _ (Nat.le_of_succ_le h)

theorem edgesFrom?_eq (id : Fin a.size) :
    edgesFrom? a.nodes places.toArray id = some (Diagram.edgesFrom a places id) := by
  have hplace : places.toArray[id.val]? = some (places.get id) := by
    rw [Vector.getElem?_toArray, Vector.getElem?_eq_getElem id.isLt]
    rfl
  have hget := a.get?_eq_node id.isLt
  generalize a.node id id.isLt = node at hget
  have hlookup : a.nodes[id.val]? = some node := hget
  rw [edgesFrom?, hplace, hlookup]
  cases hparent : places.get id with
  | none =>
    rw [Diagram.edgesFrom_none hparent]
    rfl
  | some parent =>
    cases node with
    | literal text =>
      rw [Diagram.edgesFrom_literal hget]
      rfl
    | binary op left right =>
      obtain ⟨hleft, hright⟩ := Arena.children_lt hget
      have hlsize := Nat.lt_trans hleft id.isLt
      have hrsize := Nat.lt_trans hright id.isLt
      have hl : places.toArray[left]? = some places[left] := by simp [hlsize]
      have hr : places.toArray[right]? = some places[right] := by simp [hrsize]
      rw [Diagram.edgesFrom_binary hparent hget hlsize hrsize]
      simp only [bind, Option.bind, hl, hr]
      rfl

theorem discs?_eq (id : Fin a.size) :
    discs? a.nodes places.toArray id = some (Diagram.disc? a places id).toList := by
  have hplace : places.toArray[id.val]? = some (places.get id) := by
    rw [Vector.getElem?_toArray, Vector.getElem?_eq_getElem id.isLt]
    rfl
  have hlookup : a.nodes[id.val]? = some (a.node id id.isLt) := a.get?_eq_node id.isLt
  rw [discs?, hplace, Diagram.disc?]
  simp only [bind, Option.bind]
  cases places.get id with
  | none => rfl
  | some centre =>
    rw [hlookup]
    rfl

end

theorem mapM_ids {α : Type} {size : Nat} {f : Nat → Option α} {g : Fin size → α}
    (h : ∀ id : Fin size, f id = some (g id)) :
    (List.range size).reverse.mapM f = some ((List.finRange size).reverse.map g) := by
  have hsome : f ∘ Fin.val = fun id => pure (g id) := funext h
  rw [← List.map_coe_finRange_eq_range, ← List.map_reverse, List.mapM_map, hsome]
  exact List.mapM_pure

theorem positions?_eq :
    positions? t.arena.nodes (Layout.widths t.arena).toArray t.root (Layout.rootPlace t) =
      some (Layout.positions t).toArray := by
  have hroot := set?_toArray (Vector.replicate t.arena.size none) t.root_lt
    (some (Layout.rootPlace t))
  have hbelow := placeBelow?_eq t.arena (Layout.widths t.arena)
    ((Vector.replicate t.arena.size none).set t.root (some (Layout.rootPlace t)) t.root_lt)
    (Nat.le_refl _)
  rw [positions?, show Array.replicate t.arena.nodes.size none =
    (Vector.replicate t.arena.size (none : Option Point)).toArray from rfl, hroot]
  exact hbelow

theorem diagram?_eq : diagram? t.arena.nodes t.root = some (Diagram.ofTree t) := by
  have hvalues : values? _ _ t.arena.nodes.toList = some (Layout.widths t.arena).toArray :=
    values?_eq (fun _ => Layout.nodeWidth) (fun _ => Layout.binaryWidth) t.arena
  have hwidth : (Layout.widths t.arena).toArray[t.root]? = some (Layout.rootWidth t) := by
    rw [Vector.getElem?_toArray, Vector.getElem?_eq_getElem t.root_lt]
    rfl
  have hplaces := positions?_eq t
  rw [Layout.rootPlace] at hplaces
  have hedges : (List.range t.arena.nodes.size).reverse.mapM _ = _ :=
    mapM_ids (edgesFrom?_eq t.arena (Layout.positions t))
  have hdiscs : (List.range t.arena.nodes.size).reverse.mapM _ = _ :=
    mapM_ids (discs?_eq t.arena (Layout.positions t))
  have hflat : ((List.finRange t.arena.size).reverse.map fun id =>
      (Diagram.disc? t.arena (Layout.positions t) id).toList).flatten =
        (Diagram.ofTree t).discs := by
    rw [← List.flatMap_def, ← List.filterMap_eq_flatMap_toList]
    rfl
  simp only [diagram?, bind, Option.bind, hvalues, hwidth, hplaces, depth?_eq, hedges, hdiscs]
  exact congrArg (fun discs => some { Diagram.ofTree t with discs }) hflat

theorem svg?_eq : svg? t.arena.nodes t.root = some t.svg := by
  rw [svg?, diagram?_eq]
  rfl

/-- Among the nodes there is all that a reader of the tree looks up, and each reader gives what it
gives of the tree. Of a single node the label, the kind and the children are read off one lookup. -/
structure Finds (nodes : Array Node) (t : Tree) : Prop where
  node : ∀ id, nodes[id]?.isSome = t.arena.contains id
  children : ∀ id left right, nodes[id]?.bind Node.children? = some (left, right) →
    left < id ∧ right < id ∧ t.arena.contains left = true ∧ t.arena.contains right = true
  depth : depth? nodes t.root = some t.depth
  evaluate : ∀ rounds, t.root < rounds → evaluate? nodes rounds t.root = some t.evaluate
  drawing : ∀ rounds, t.root < rounds → drawing? nodes rounds t.root = some t.drawing
  svg : svg? nodes t.root = some t.svg

theorem finds : Finds t.arena.nodes t where
  node := t.arena.get?_isSome
  children id left right h := by
    obtain ⟨node, hget, hchildren⟩ := Option.bind_eq_some_iff.1 h
    cases node with
    | literal text => cases hchildren
    | binary op left' right' =>
      cases hchildren
      have hid := Arena.lt_size_of_get? hget
      obtain ⟨hl, hr⟩ := Arena.children_lt hget
      exact ⟨hl, hr, decide_eq_true (Nat.lt_trans hl hid), decide_eq_true (Nat.lt_trans hr hid)⟩
  depth := depth?_eq t
  evaluate _ := evaluate?_eq t
  drawing _ := drawing?_eq t
  svg := svg?_eq t

end Calculator.Lookup
