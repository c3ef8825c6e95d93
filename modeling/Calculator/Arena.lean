import Calculator.Expr

/-! # Arenas

An arena stores the nodes of expression trees under the numbers 0, 1, 2, … in the order they were
added. A binary node may only be added over nodes that are there already, so both of its children
have smaller numbers than it has (`Arena.childrenBelow`); a node may be a child of several others,
and of none. Values that go up from the children are therefore found for all nodes in one pass in
the order of their numbers (`Arena.foldTable`); `getElem_foldTable` says that the pass gives each
node the value of the expression it stands for.
-/

namespace Calculator

/-- A stored node; children are given by their numbers. -/
inductive Node where
  | literal (text : String)
  | binary (op : Operator) (left right : Nat)
deriving DecidableEq

namespace Node

/-- Whether the node's children have numbers below `bound`. -/
def ChildrenBelow (bound : Nat) : Node → Prop
  | .literal _ => True
  | .binary _ left right => left < bound ∧ right < bound

/-- The text a node is shown with: a literal's text or an operator's symbol. -/
def label : Node → String
  | .literal text => text
  | .binary op _ _ => op.text

/-- Whether the node is a literal. -/
def isLeaf : Node → Bool
  | .literal _ => true
  | .binary .. => false

/-- The numbers of the left and the right child of a binary node. -/
def children? : Node → Option (Nat × Nat)
  | .literal _ => none
  | .binary _ left right => some (left, right)

/-- The value of a node when literals and operators stand for what is given and `value` has the
values of the numbers below `bound`. -/
def combine {α : Type} (literal : String → α) (binary : Operator → α → α → α) {bound : Nat}
    (value : (id : Nat) → id < bound → α) (node : Node) (below : node.ChildrenBelow bound) : α :=
  match node, below with
  | .literal text, _ => literal text
  | .binary op left right, below => binary op (value left below.1) (value right below.2)

section

variable {α : Type} {literal : String → α} {binary : Operator → α → α → α} {bound : Nat}
  {value : (id : Nat) → id < bound → α} {node : Node}

theorem combine_literal {text : String} (h : node = .literal text)
    (below : node.ChildrenBelow bound) :
    node.combine literal binary value below = literal text := by
  subst h
  rfl

theorem combine_binary {op : Operator} {left right : Nat} (h : node = .binary op left right)
    (below : node.ChildrenBelow bound) (hl : left < bound) (hr : right < bound) :
    node.combine literal binary value below = binary op (value left hl) (value right hr) := by
  subst h
  rfl

end

theorem combine_congr {α : Type} {literal : String → α} {binary : Operator → α → α → α}
    {bound : Nat} {f g : (id : Nat) → id < bound → α} (h : ∀ id hid, f id hid = g id hid)
    (node : Node) (below : node.ChildrenBelow bound) :
    node.combine literal binary f below = node.combine literal binary g below := by
  rw [show f = g from funext fun id => funext fun hid => h id hid]

/-- Folding the expression of a node folds the expressions of its children. -/
theorem fold_combine {α : Type} (literal : String → α) (binary : Operator → α → α → α)
    {bound : Nat} (f : (id : Nat) → id < bound → Expr) (node : Node)
    (below : node.ChildrenBelow bound) :
    (node.combine Expr.literal Expr.binary f below).fold literal binary =
      node.combine literal binary (fun id hid => (f id hid).fold literal binary) below := by
  cases node <;> rfl

end Node

/-- Nodes in the order they were added, children before parents. -/
structure Arena where
  nodes : Array Node
  childrenBelow : ∀ (id : Nat) (h : id < nodes.size), nodes[id].ChildrenBelow id

namespace Arena

instance : DecidableEq Arena := fun a b =>
  decidable_of_iff (a.nodes = b.nodes) (by cases a; cases b; simp)

/-- The arena without nodes. -/
def empty : Arena := ⟨#[], fun _ h => absurd h (Nat.not_lt_zero _)⟩

/-- How many nodes there are, and the number of the node that is added next. -/
def size (a : Arena) : Nat := a.nodes.size

/-- Whether there is a node of this number. -/
def contains (a : Arena) (id : Nat) : Bool := id < a.size

/-- The node of a number, if there is one. -/
def get? (a : Arena) (id : Nat) : Option Node := a.nodes[id]?

/-- The node of a number that is there. -/
def node (a : Arena) (id : Nat) (h : id < a.size) : Node :=
  have : id < a.nodes.size := h
  a.nodes[id]

theorem node_childrenBelow (a : Arena) (id : Nat) (h : id < a.size) :
    (a.node id h).ChildrenBelow id :=
  a.childrenBelow id h

theorem get?_eq_node (a : Arena) {id : Nat} (h : id < a.size) : a.get? id = some (a.node id h) :=
  Array.getElem?_eq_getElem h

theorem get?_eq_some_iff {a : Arena} {id : Nat} {node : Node} :
    a.get? id = some node ↔ ∃ h, a.node id h = node :=
  Array.getElem?_eq_some_iff

theorem lt_size_of_get? {a : Arena} {id : Nat} {node : Node} (h : a.get? id = some node) :
    id < a.size :=
  (get?_eq_some_iff.1 h).1

/-- There is a node of a number exactly if the number is below the size. -/
theorem get?_isSome (a : Arena) (id : Nat) : (a.get? id).isSome = a.contains id := by
  by_cases h : id < a.size
  · rw [get?_eq_node a h, contains, decide_eq_true h, Option.isSome_some]
  · rw [get?, Array.getElem?_eq_none (Nat.le_of_not_lt h), contains, decide_eq_false h,
      Option.isSome_none]

/-- A child's number is smaller than its parent's. -/
theorem children_lt {a : Arena} {id : Nat} {op : Operator} {left right : Nat}
    (h : a.get? id = some (.binary op left right)) : left < id ∧ right < id := by
  obtain ⟨hid, hnode⟩ := get?_eq_some_iff.1 h
  have hbelow := a.node_childrenBelow id hid
  rw [hnode] at hbelow
  exact hbelow

/-- The arena with one more node, whose children are there already. -/
def push (a : Arena) (node : Node) (h : node.ChildrenBelow a.size) : Arena where
  nodes := a.nodes.push node
  childrenBelow id hid := by
    rw [Array.getElem_push]
    split
    · exact a.childrenBelow id _
    · have : id = a.size := by
        simp only [Array.size_push] at hid
        simp only [size]
        omega
      exact this ▸ h

/-- Adds a literal; gives its number and the new arena. -/
def addLiteral (a : Arena) (text : String) : Nat × Arena :=
  (a.size, a.push (.literal text) trivial)

/-- Adds a binary node over two nodes of the arena; gives its number and the new arena. -/
def addBinary (a : Arena) (op : Operator) (left right : Nat) (hl : left < a.size)
    (hr : right < a.size) : Nat × Arena :=
  (a.size, a.push (.binary op left right) ⟨hl, hr⟩)

/-- Adds a binary node if both children are there. -/
def addBinary? (a : Arena) (op : Operator) (left right : Nat) : Option (Nat × Arena) :=
  if h : left < a.size ∧ right < a.size then some (a.addBinary op left right h.1 h.2) else none

@[simp] theorem size_empty : empty.size = 0 := rfl

@[simp] theorem size_push (a : Arena) (node : Node) (h : node.ChildrenBelow a.size) :
    (a.push node h).size = a.size + 1 := by
  simp [size, push]

@[simp] theorem size_addLiteral (a : Arena) (text : String) :
    (a.addLiteral text).2.size = a.size + 1 :=
  a.size_push (.literal text) trivial

@[simp] theorem size_addBinary (a : Arena) (op : Operator) (left right : Nat) (hl : left < a.size)
    (hr : right < a.size) : (a.addBinary op left right hl hr).2.size = a.size + 1 :=
  a.size_push (.binary op left right) ⟨hl, hr⟩

/-! ## Values that go up from the children -/

section Fold

variable {α : Type} (literal : String → α) (binary : Operator → α → α → α)

/-- The values of the nodes below `count`, each found from its children's values. -/
def foldTable (a : Arena) : (count : Nat) → count ≤ a.size → Vector α count
  | 0, _ => #v[]
  | id + 1, h =>
    let table := foldTable a id (Nat.le_of_succ_le h)
    table.push <|
      (a.node id h).combine literal binary (fun child _ => table[child])
        (a.node_childrenBelow id h)

/-- The values of all nodes. -/
def values (a : Arena) : Vector α a.size := a.foldTable literal binary a.size (Nat.le_refl _)

/-- The value of the node with number `id`. -/
def valueAt (a : Arena) (id : Nat) (h : id < a.size) : α := (a.values literal binary)[id]

/-- A longer table agrees with a shorter one. -/
theorem getElem_foldTable (a : Arena) {id count : Nat} (hid : id < count) (h : count ≤ a.size) :
    (a.foldTable literal binary count h)[id] =
      (a.foldTable literal binary (id + 1) (Nat.le_trans hid h))[id] := by
  induction count with
  | zero => omega
  | succ count ih =>
    by_cases heq : id = count
    · subst heq
      rfl
    · rw [foldTable, Vector.getElem_push_lt (by omega)]
      exact ih (by omega) (by omega)

/-- A node's value is found from its children's values. -/
theorem valueAt_eq (a : Arena) (id : Nat) (h : id < a.size) :
    a.valueAt literal binary id h =
      (a.node id h).combine literal binary
        (fun child hc => a.valueAt literal binary child (Nat.lt_trans hc h))
        (a.node_childrenBelow id h) := by
  unfold valueAt values
  rw [getElem_foldTable]
  rw [foldTable, Vector.getElem_push_eq]
  apply Node.combine_congr
  intro child hc
  rw [getElem_foldTable, ← getElem_foldTable]

end Fold

/-! ## The expression of a node -/

/-- The expression that the node with number `id` stands for: a walk down its children, which ends
because their numbers are smaller. -/
def exprAt (a : Arena) (id : Nat) (h : id < a.size) : Expr :=
  (a.node id h).combine Expr.literal Expr.binary
    (fun child hc => a.exprAt child (Nat.lt_trans hc h)) (a.node_childrenBelow id h)
termination_by id

theorem exprAt_literal {a : Arena} {id : Nat} {text : String}
    (h : a.get? id = some (.literal text)) (hid : id < a.size) :
    a.exprAt id hid = .literal text := by
  obtain ⟨_, hnode⟩ := get?_eq_some_iff.1 h
  rw [exprAt]
  exact Node.combine_literal hnode _

theorem exprAt_binary {a : Arena} {id : Nat} {op : Operator} {left right : Nat}
    (h : a.get? id = some (.binary op left right)) (hid : id < a.size) (hl : left < a.size)
    (hr : right < a.size) :
    a.exprAt id hid = .binary op (a.exprAt left hl) (a.exprAt right hr) := by
  obtain ⟨_, hnode⟩ := get?_eq_some_iff.1 h
  rw [exprAt]
  exact Node.combine_binary hnode _ (children_lt h).1 (children_lt h).2

/-- What holds of every literal, and of a binary node if it holds of its children, holds of every
node and the expression it stands for. -/
theorem unfold_induction {a : Arena} {motive : (id : Nat) → id < a.size → Expr → Prop}
    (literal : ∀ id h text, a.get? id = some (.literal text) → motive id h (.literal text))
    (binary : ∀ id h op left right (hl : left < a.size) (hr : right < a.size),
      a.get? id = some (.binary op left right) → motive left hl (a.exprAt left hl) →
      motive right hr (a.exprAt right hr) →
      motive id h (.binary op (a.exprAt left hl) (a.exprAt right hr)))
    (id : Nat) (h : id < a.size) : motive id h (a.exprAt id h) := by
  induction id using Nat.strongRecOn with
  | ind id ih =>
    have hget := a.get?_eq_node h
    generalize a.node id h = node at hget
    cases node with
    | literal text =>
      rw [exprAt_literal hget]
      exact literal id h text hget
    | binary op left right =>
      obtain ⟨hleft, hright⟩ := children_lt hget
      have hl := Nat.lt_trans hleft h
      have hr := Nat.lt_trans hright h
      rw [exprAt_binary hget h hl hr]
      exact binary id h op left right hl hr hget (ih left hleft hl) (ih right hright hr)

/-- The one pass over the arena gives each node the value of the expression it stands for. -/
theorem valueAt_eq_fold {α : Type} (literal : String → α) (binary : Operator → α → α → α)
    (a : Arena) (id : Nat) (h : id < a.size) :
    a.valueAt literal binary id h = (a.exprAt id h).fold literal binary := by
  induction id using Nat.strongRecOn with
  | ind id ih =>
    rw [exprAt, valueAt_eq, Node.fold_combine]
    exact Node.combine_congr (fun child hc => ih child hc (Nat.lt_trans hc h)) _ _

end Arena

end Calculator
