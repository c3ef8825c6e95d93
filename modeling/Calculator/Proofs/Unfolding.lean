import Mathlib
import Calculator.Proofs.Blame
import Calculator.Proofs.History

/-!
# What the root of a tree stands for

The expression of a node is unfolded from it: a node stands in it once for each path that leads
there, and a node that no path leads to does not stand in it. Evaluation reads no more than this
expression (`Tree.evaluate_unfolded`): its literals are those met on a walk from the root, and the
leftmost bad one is blamed. The depth that is found in one pass over all nodes is the expression's,
and the number of nodes on the longest path from the root (`Tree.depth_longest`).
-/

namespace Calculator

/-! ## Literals -/

/-- The text of a node that is a literal. -/
def Node.literal? : Node → Option String
  | .literal text => some text
  | .binary .. => none

namespace Arena

variable {a : Arena} {id : Nat}

/-- The texts of the literals among nodes. -/
def literals (a : Arena) (ids : List Nat) : List String :=
  ids.filterMap fun id => (a.get? id).bind Node.literal?

theorem literals_append (a : Arena) (ids more : List Nat) :
    a.literals (ids ++ more) = a.literals ids ++ a.literals more :=
  List.filterMap_append

/-- The literals of an expression are met on a walk in the same order. -/
theorem literals_walk (h : id < a.size) :
    a.literals (a.walk id h) = (a.exprAt id h).literals := by
  induction id, h using unfold_induction with
  | literal id h text hget =>
    rw [walk_literal hget]
    simp [literals, hget, Node.literal?, Expr.literals]
  | binary id h op left right hl hr hget ihl ihr =>
    have hroot : a.literals [id] = [] := by simp [literals, hget, Node.literal?]
    rw [walk_binary hget h hl hr, literals_append, literals_append, ihl, ihr, hroot,
      List.append_nil, Expr.literals]

theorem mem_literals_exprAt (h : id < a.size) {text : String} :
    text ∈ (a.exprAt id h).literals ↔
      ∃ other, a.Reaches id other ∧ a.get? other = some (.literal text) := by
  have hnode (node : Node) : node.literal? = some text ↔ node = .literal text := by
    cases node <;> simp [Node.literal?]
  rw [← literals_walk, literals, List.mem_filterMap]
  simp only [mem_walk, Option.bind_eq_some_iff, hnode, exists_eq_right]

end Arena

namespace Expr

theorem hasValue_iff {e : Expr} {v : Binary64} : e.HasValue v ↔ e.evaluate = .ok v := by
  refine ⟨HasValue.evaluate_eq, fun h => ?_⟩
  induction e generalizing v with
  | literal text => exact .literal h
  | binary op left right ihl ihr =>
    obtain ⟨x, hx, hrest⟩ := bind_eq_ok_iff.1 h
    obtain ⟨y, hy, hvalue⟩ := bind_eq_ok_iff.1 hrest
    obtain rfl := Except.ok.inj hvalue
    exact .binary (ihl hx) (ihr hy)

theorem HasValue.literal_value {e : Expr} {v : Binary64} (h : e.HasValue v) :
    ∀ text ∈ e.literals, ∃ x, Literal.value text = .ok x := by
  induction h with
  | literal hvalue =>
    intro text htext
    obtain rfl := List.mem_singleton.1 htext
    exact ⟨_, hvalue⟩
  | binary _ _ ihl ihr =>
    exact fun text htext => (List.mem_append.1 htext).elim (ihl text) (ihr text)

end Expr

namespace Tree

/-- A tree has the value of the expression that its root stands for, and a walk from the root down
to the children, the left one first, finds it. There is a value exactly if every literal that the
root reaches has one. Otherwise the first bad literal on the walk is blamed, which the root reaches:
what it does not reach is never blamed. -/
theorem evaluate_unfolded (t : Tree) :
    t.evaluate = t.expr.evaluate ∧
    (∀ more, Lookup.evaluate? t.arena.nodes (t.root + 1 + more) t.root = some t.evaluate) ∧
    (∀ v, t.evaluate = .ok v ↔ t.expr.HasValue v) ∧
    ((∃ v, t.evaluate = .ok v) ↔ ∀ id text, t.arena.Reaches t.root id →
      t.arena.get? id = some (.literal text) → ∃ v, Literal.value text = .ok v) ∧
    (∀ text, t.evaluate = .error ⟨text⟩ ↔
      t.expr.literals.find? Literal.rejected = some text) ∧
    t.expr.literals = t.arena.literals (t.arena.walk t.root t.root_lt) ∧
    ∀ text, t.evaluate = .error ⟨text⟩ → Literal.rejected text = true ∧
      ∃ id, t.arena.Reaches t.root id ∧ t.arena.get? id = some (.literal text) := by
  have hvalue (v : Binary64) : t.evaluate = .ok v ↔ t.expr.HasValue v := by
    rw [evaluate_eq, Expr.hasValue_iff]
  have hblamed (text : String) : t.evaluate = .error ⟨text⟩ ↔
      t.expr.literals.find? Literal.rejected = some text := by
    rw [evaluate_eq, Expr.evaluate_eq_error_iff]
  refine ⟨t.evaluate_eq, fun more => Lookup.evaluate?_eq t (by omega), hvalue, ⟨?_, ?_⟩, hblamed,
    (Arena.literals_walk t.root_lt).symm, fun text h => ?_⟩
  · rintro ⟨v, hv⟩ id text hreach hget
    exact ((hvalue v).1 hv).literal_value text
      ((Arena.mem_literals_exprAt t.root_lt).2 ⟨id, hreach, hget⟩)
  · intro h
    have hliterals : ∀ text ∈ t.expr.literals, ∃ v, Literal.value text = .ok v := by
      intro text htext
      obtain ⟨id, hreach, hget⟩ := (Arena.mem_literals_exprAt t.root_lt).1 htext
      exact h id text hreach hget
    obtain ⟨v, hv⟩ := Expr.exists_hasValue hliterals
    exact ⟨v, (hvalue v).2 hv⟩
  · have hfind := (hblamed text).1 h
    exact ⟨List.find?_some hfind,
      (Arena.mem_literals_exprAt t.root_lt).1 (List.mem_of_find?_eq_some hfind)⟩

/-- A sum of one node with itself beside two bad literals that it does not reach, and a difference
that reaches both: the left one is blamed, which was added later. -/
theorem evaluate_unfolded_shared :
    let calls : List Arena.Call := [.literal ".", .literal "2", .binary .add 1 1,
      .literal "1.2.3", .binary .mul 2 3, .binary .sub 4 0]
    let a := (Arena.empty.run calls).2
    (∃ t, ofArena? a 2 = some t ∧ (∃ v, t.evaluate = .ok v) ∧ t.arena.Reaches t.root 1 ∧
      t.arena.get? 1 = some (.literal "2") ∧ ∃ v, Literal.value "2" = .ok v) ∧
    ∃ t, ofArena? a 5 = some t ∧ t.evaluate = .error ⟨"1.2.3"⟩ ∧
      t.expr.literals.find? Literal.rejected = some "1.2.3" ∧
      Literal.rejected "1.2.3" = true ∧
      ∃ id, t.arena.Reaches t.root id ∧ t.arena.get? id = some (.literal "1.2.3") := by
  intro calls a
  have hsum : 2 < a.size := by decide
  have hroot : 5 < a.size := by decide
  have hvalue : ∃ v, (Tree.mk a 2 hsum).evaluate = .ok v := ⟨_, rfl⟩
  have hreach : a.Reaches 2 1 := ⟨[.left], by decide⟩
  have hget : a.get? 1 = some (.literal "2") := by decide
  have herror : (Tree.mk a 5 hroot).evaluate = .error ⟨"1.2.3"⟩ := rfl
  obtain ⟨-, -, -, hok, -⟩ := evaluate_unfolded ⟨a, 2, hsum⟩
  obtain ⟨-, -, -, -, hfirst, -, hblamed⟩ := evaluate_unfolded ⟨a, 5, hroot⟩
  exact ⟨⟨⟨a, 2, hsum⟩, dif_pos hsum, hvalue, hreach, hget, hok.1 hvalue 1 "2" hreach hget⟩,
    ⟨a, 5, hroot⟩, dif_pos hroot, herror, (hfirst "1.2.3").1 herror, hblamed "1.2.3" herror⟩

end Tree

/-! ## Depth -/

namespace Arena

variable {a : Arena} {id : Nat}

/-- No path is longer than the expression is deep. -/
theorem length_lt_depth (h : id < a.size) {path : List Side} {other : Nat}
    (hpath : a.follow? id path = some other) : path.length < (a.exprAt id h).depth := by
  induction id, h using unfold_induction generalizing path with
  | literal id h text hget =>
    obtain ⟨rfl, -⟩ := (follow?_literal_iff hget).1 hpath
    exact Nat.zero_lt_one
  | binary id h op left right hl hr hget ihl ihr =>
    rw [Expr.depth]
    rcases (follow?_binary_iff hget).1 hpath with ⟨rfl, -⟩ | ⟨rest, rfl, hrest⟩ | ⟨rest, rfl, hrest⟩
    · rw [List.length_nil]
      omega
    · have := ihl hrest
      rw [List.length_cons]
      omega
    · have := ihr hrest
      rw [List.length_cons]
      omega

/-- Some path to a literal is as long as the expression is deep. -/
theorem exists_path_depth (h : id < a.size) :
    ∃ path other text, a.follow? id path = some other ∧ a.get? other = some (.literal text) ∧
      path.length + 1 = (a.exprAt id h).depth := by
  induction id, h using unfold_induction with
  | literal id h text hget => exact ⟨[], id, text, rfl, hget, rfl⟩
  | binary id h op left right hl hr hget ihl ihr =>
    obtain ⟨hleft, hright⟩ := child?_of_binary hget
    rw [Expr.depth]
    rcases Nat.le_total (a.exprAt left hl).depth (a.exprAt right hr).depth with hle | hle
    · obtain ⟨path, other, text, hpath, hother, hlength⟩ := ihr
      refine ⟨.right :: path, other, text, (follow?_cons hright path).trans hpath, hother, ?_⟩
      rw [List.length_cons, Nat.max_eq_right hle]
      omega
    · obtain ⟨path, other, text, hpath, hother, hlength⟩ := ihl
      refine ⟨.left :: path, other, text, (follow?_cons hleft path).trans hpath, hother, ?_⟩
      rw [List.length_cons, Nat.max_eq_left hle]
      omega

theorem finite_reaches (a : Arena) (id : Nat) : {other | a.Reaches id other}.Finite :=
  (Set.finite_Iic id).subset fun _ hreach => hreach.le

/-- A node reaches as many nodes at least as its expression is deep: it is none of those that its
children reach. -/
theorem depth_le_ncard (h : id < a.size) :
    (a.exprAt id h).depth ≤ {other | a.Reaches id other}.ncard := by
  induction id, h using unfold_induction with
  | literal id h text hget =>
    have hset : {other | a.Reaches id other} = {id} := by
      ext other
      simp [reaches_literal_iff hget, eq_comm]
    rw [hset, Set.ncard_singleton]
    exact Nat.le_refl _
  | binary id h op left right hl hr hget ihl ihr =>
    obtain ⟨hleft, hright⟩ := children_lt hget
    have hset : {other | a.Reaches id other} =
        insert id ({other | a.Reaches left other} ∪ {other | a.Reaches right other}) := by
      ext other
      simp [reaches_binary_iff hget, eq_comm]
    have hunion := (a.finite_reaches left).union (a.finite_reaches right)
    have hnot : id ∉ {other | a.Reaches left other} ∪ {other | a.Reaches right other} := by
      rintro (hreach | hreach)
      · exact Nat.not_lt.2 hreach.le hleft
      · exact Nat.not_lt.2 hreach.le hright
    have hsubl := Set.ncard_le_ncard Set.subset_union_left hunion
    have hsubr := Set.ncard_le_ncard Set.subset_union_right hunion
    rw [hset, Set.ncard_insert_of_notMem hnot hunion, Expr.depth]
    omega

end Arena

namespace Tree

/-- The one pass over all nodes finds each child's depth that it looks up, and gives the root the
depth of the expression it stands for: the number of nodes on the longest path from the root to a
literal. That is at least one and at most the number of nodes that the root reaches. -/
theorem depth_longest (t : Tree) :
    t.depth = t.expr.depth ∧
    Lookup.depth? t.arena.nodes t.root = some t.depth ∧
    IsGreatest {n | ∃ path id text, t.arena.follow? t.root path = some id ∧
      t.arena.get? id = some (.literal text) ∧ path.length + 1 = n} t.depth ∧
    1 ≤ t.depth ∧ t.depth ≤ {id | t.arena.Reaches t.root id}.ncard := by
  have hlongest := Arena.exists_path_depth t.root_lt
  have hbound : t.expr.depth ≤ {id | t.arena.Reaches t.root id}.ncard :=
    Arena.depth_le_ncard t.root_lt
  rw [Lookup.depth?_eq, depth_eq]
  refine ⟨rfl, rfl, ⟨hlongest, ?_⟩, ?_, hbound⟩
  · rintro n ⟨path, id, text, hpath, -, rfl⟩
    exact Arena.length_lt_depth t.root_lt hpath
  · obtain ⟨path, -, -, -, -, hlength⟩ := hlongest
    have hroot : t.expr.depth = (t.arena.exprAt t.root t.root_lt).depth := rfl
    omega

/-- The nodes that the root does not reach are deeper than it. -/
example :
    let calls : List Arena.Call := [.literal "1", .binary .add 0 0, .binary .mul 1 0, .literal "2",
      .binary .sub 0 3]
    (ofArena? (Arena.empty.run calls).2 4).map depth = some 2 := by
  decide +kernel

end Tree

end Calculator
