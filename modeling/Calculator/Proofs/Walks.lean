import Mathlib
import Calculator.Arena

/-!
# Walks in an arena

From a node a path of left and right steps goes down to another (`Arena.follow?`), and a node
reaches those that some path leads to (`Arena.Reaches`). A walk from a node meets what it reaches,
once for each path, operands before operators (`Arena.walk`, `Arena.mem_walk`). An arena that only
gains nodes keeps all walks in it (`Arena.Extends`).
-/

namespace Calculator

/-- A child of a binary node, as seen from it. -/
inductive Side where
  | left
  | right
deriving DecidableEq

namespace Arena

/-! ## Growing arenas -/

/-- The first arena's nodes are in the second, under the same numbers. -/
def Extends (a b : Arena) : Prop :=
  ∀ ⦃id : Nat⦄ ⦃node : Node⦄, a.get? id = some node → b.get? id = some node

theorem Extends.refl (a : Arena) : a.Extends a := fun _ _ h => h

theorem Extends.trans {a b c : Arena} (hab : a.Extends b) (hbc : b.Extends c) : a.Extends c :=
  fun _ _ h => hbc (hab h)

theorem Extends.size_le {a b : Arena} (h : a.Extends b) : a.size ≤ b.size := by
  by_contra hlt
  -- The first number past the second arena would have a node in it.
  have hid : b.size < a.size := Nat.lt_of_not_le hlt
  exact Nat.lt_irrefl _ (lt_size_of_get? (h (a.get?_eq_node hid)))

theorem get?_push (a : Arena) (node : Node) (h : node.ChildrenBelow a.size) (id : Nat) :
    (a.push node h).get? id = if id = a.size then some node else a.get? id :=
  Array.getElem?_push

theorem get?_push_size (a : Arena) (node : Node) (h : node.ChildrenBelow a.size) :
    (a.push node h).get? a.size = some node := by
  rw [get?_push, if_pos rfl]

theorem extends_push (a : Arena) (node : Node) (h : node.ChildrenBelow a.size) :
    a.Extends (a.push node h) := by
  intro id other hget
  rw [get?_push, if_neg (Nat.ne_of_lt (lt_size_of_get? hget)), hget]

/-! ## Paths -/

/-- The child on a side, if there is one. -/
def child? (a : Arena) (id : Nat) (side : Side) : Option Nat :=
  match a.get? id, side with
  | some (.binary _ left _), .left => some left
  | some (.binary _ _ right), .right => some right
  | _, _ => none

/-- The node that a path leads to. -/
def follow? (a : Arena) (id : Nat) : List Side → Option Nat
  | [] => some id
  | side :: path => do a.follow? (← a.child? id side) path

/-- Some path leads from the one node to the other. -/
def Reaches (a : Arena) (id other : Nat) : Prop := ∃ path, a.follow? id path = some other

theorem child?_of_literal {a : Arena} {id : Nat} {text : String}
    (h : a.get? id = some (.literal text)) (side : Side) : a.child? id side = none := by
  simp only [child?, h]

theorem child?_of_binary {a : Arena} {id : Nat} {op : Operator} {left right : Nat}
    (h : a.get? id = some (.binary op left right)) :
    a.child? id .left = some left ∧ a.child? id .right = some right := by
  simp only [child?, h, and_self]

/-- A path goes on from a child as from any other node. -/
theorem follow?_cons {a : Arena} {id child : Nat} {side : Side} (h : a.child? id side = some child)
    (path : List Side) : a.follow? id (side :: path) = a.follow? child path := by
  rw [follow?, h]
  rfl

/-- A child's number is smaller than its parent's. -/
theorem lt_of_child? {a : Arena} {id other : Nat} {side : Side}
    (h : a.child? id side = some other) : other < id := by
  unfold child? at h
  split at h
  · rename_i hget
    obtain rfl := Option.some.inj h
    exact (children_lt hget).1
  · rename_i hget
    obtain rfl := Option.some.inj h
    exact (children_lt hget).2
  · cases h

/-- No path goes on from a literal. -/
theorem follow?_literal_iff {a : Arena} {id other : Nat} {text : String} {path : List Side}
    (h : a.get? id = some (.literal text)) :
    a.follow? id path = some other ↔ path = [] ∧ id = other := by
  cases path with
  | nil => simp [follow?]
  | cons side path => simp [follow?, child?_of_literal h]

/-- A path from a binary node ends there or goes on from one of its children. -/
theorem follow?_binary_iff {a : Arena} {id other : Nat} {op : Operator} {left right : Nat}
    {path : List Side} (h : a.get? id = some (.binary op left right)) :
    a.follow? id path = some other ↔
      path = [] ∧ id = other ∨
        (∃ rest, path = .left :: rest ∧ a.follow? left rest = some other) ∨
          ∃ rest, path = .right :: rest ∧ a.follow? right rest = some other := by
  obtain ⟨hl, hr⟩ := child?_of_binary h
  rcases path with _ | ⟨_ | _, path⟩
  · simp [follow?]
  · simp [follow?, hl]
  · simp [follow?, hr]

theorem follow?_append (a : Arena) (id : Nat) (path more : List Side) :
    a.follow? id (path ++ more) = a.follow? id path >>= (a.follow? · more) := by
  induction path generalizing id with
  | nil => rfl
  | cons side path ih =>
    rw [List.cons_append, follow?, follow?]
    cases a.child? id side with
    | none => rfl
    | some child => exact ih child

/-- A path's last step goes on from the node that the path before it leads to. -/
theorem follow?_concat_iff {a : Arena} {id child : Nat} {path : List Side} {side : Side} :
    a.follow? id (path ++ [side]) = some child ↔
      ∃ parent, a.follow? id path = some parent ∧ a.child? parent side = some child := by
  simp [follow?_append, follow?, Option.bind_eq_some_iff]

theorem Reaches.refl (a : Arena) (id : Nat) : a.Reaches id id := ⟨[], rfl⟩

/-- What reaches a node reaches its children. -/
theorem Reaches.children {a : Arena} {id other : Nat} (h : a.Reaches id other) {op : Operator}
    {left right : Nat} (hget : a.get? other = some (.binary op left right)) :
    a.Reaches id left ∧ a.Reaches id right := by
  obtain ⟨path, hpath⟩ := h
  obtain ⟨hl, hr⟩ := child?_of_binary hget
  exact ⟨⟨path ++ [.left], by simp [follow?_append, hpath, follow?, hl]⟩,
    ⟨path ++ [.right], by simp [follow?_append, hpath, follow?, hr]⟩⟩

theorem reaches_literal_iff {a : Arena} {id other : Nat} {text : String}
    (h : a.get? id = some (.literal text)) : a.Reaches id other ↔ id = other := by
  simp [Reaches, follow?_literal_iff h]

/-- A binary node reaches itself and what its children reach. -/
theorem reaches_binary_iff {a : Arena} {id other : Nat} {op : Operator} {left right : Nat}
    (h : a.get? id = some (.binary op left right)) :
    a.Reaches id other ↔ id = other ∨ a.Reaches left other ∨ a.Reaches right other := by
  constructor
  · rintro ⟨path, hpath⟩
    rcases (follow?_binary_iff h).1 hpath with ⟨-, heq⟩ | ⟨rest, -, hrest⟩ | ⟨rest, -, hrest⟩
    · exact .inl heq
    · exact .inr (.inl ⟨rest, hrest⟩)
    · exact .inr (.inr ⟨rest, hrest⟩)
  · rintro (rfl | ⟨rest, hrest⟩ | ⟨rest, hrest⟩)
    · exact .refl a id
    · exact ⟨.left :: rest, (follow?_binary_iff h).2 (.inr (.inl ⟨rest, rfl, hrest⟩))⟩
    · exact ⟨.right :: rest, (follow?_binary_iff h).2 (.inr (.inr ⟨rest, rfl, hrest⟩))⟩

/-- What a node reaches has no larger number. -/
theorem Reaches.le {a : Arena} {id other : Nat} (h : a.Reaches id other) : other ≤ id := by
  obtain ⟨path, hpath⟩ := h
  induction path generalizing id with
  | nil => exact Nat.le_of_eq (Option.some.inj hpath).symm
  | cons side path ih =>
    obtain ⟨child, hchild, hrest⟩ := Option.bind_eq_some_iff.1 hpath
    exact Nat.le_trans (ih hrest) (Nat.le_of_lt (lt_of_child? hchild))

/-! ## Walks -/

/-- The nodes met on a walk from a node: those met from its left child, from its right child, and
the node itself. -/
def walk (a : Arena) (id : Nat) (h : id < a.size) : List Nat :=
  (a.node id h).combine (fun _ => []) (fun _ left right => left ++ right)
    (fun child hc => a.walk child (Nat.lt_trans hc h)) (a.node_childrenBelow id h) ++ [id]
termination_by id

theorem walk_literal {a : Arena} {id : Nat} {text : String}
    (h : a.get? id = some (.literal text)) (hid : id < a.size) : a.walk id hid = [id] := by
  obtain ⟨_, hnode⟩ := get?_eq_some_iff.1 h
  rw [walk, Node.combine_literal hnode]
  rfl

theorem walk_binary {a : Arena} {id : Nat} {op : Operator} {left right : Nat}
    (h : a.get? id = some (.binary op left right)) (hid : id < a.size) (hl : left < a.size)
    (hr : right < a.size) : a.walk id hid = a.walk left hl ++ a.walk right hr ++ [id] := by
  obtain ⟨_, hnode⟩ := get?_eq_some_iff.1 h
  rw [walk, Node.combine_binary hnode _ (children_lt h).1 (children_lt h).2]

/-- A walk meets exactly what its first node reaches. -/
theorem mem_walk {a : Arena} {id other : Nat} (h : id < a.size) :
    other ∈ a.walk id h ↔ a.Reaches id other := by
  induction id, h using unfold_induction with
  | literal id h text hget =>
    rw [walk_literal hget, reaches_literal_iff hget, List.mem_singleton, eq_comm]
  | binary id h op left right hl hr hget ihl ihr =>
    rw [walk_binary hget h hl hr, reaches_binary_iff hget, List.mem_append, List.mem_append,
      List.mem_singleton, ihl, ihr, eq_comm, or_comm]

end Arena

end Calculator
