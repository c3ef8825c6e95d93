import Mathlib
import Calculator.Proofs.History
import Calculator.Proofs.Renumbering

/-!
# Nodes that the root does not reach

A tree is pruned by dropping the nodes that its root does not reach and numbering the others anew,
in the order they had (`Tree.prune`). What is shown of a tree is shown of the pruned tree, and of
the tree in an arena to which nodes have been added since (`Tree.alike_prune`).
-/

namespace Calculator

/-- An arena embeds into what it grows to, with the numbers as they are. -/
theorem Arena.Extends.embeds {a b : Arena} (h : a.Extends b) : a.Embeds id b where
  lt_of_lt _ _ hij _ := hij
  get? i node hget := by
    rw [show node.renumber id = node by cases node <;> rfl]
    exact h hget

namespace Tree

/-! ## The nodes that are kept -/

/-- The numbers of the nodes that the root reaches, in order. -/
def kept (t : Tree) : List Nat :=
  (List.range t.arena.size).filter (· ∈ t.arena.walk t.root t.root_lt)

theorem mem_kept {t : Tree} {id : Nat} : id ∈ t.kept ↔ t.arena.Reaches t.root id := by
  rw [kept, List.mem_filter, List.mem_range, decide_eq_true_iff, Arena.mem_walk]
  exact and_iff_right_of_imp fun h => Nat.lt_of_le_of_lt h.le t.root_lt

theorem kept_lt (t : Tree) : ∀ id ∈ t.kept, id < t.arena.size := fun _ h =>
  List.mem_range.1 (List.mem_filter.1 h).1

theorem root_mem_kept (t : Tree) : t.root ∈ t.kept := mem_kept.2 (.refl _ _)

theorem pairwise_kept (t : Tree) : t.kept.Pairwise (· < ·) :=
  List.pairwise_lt_range.filter _

theorem kept_lt_kept {t : Tree} {i j : Nat} (hij : i < j) (hj : j < t.kept.length)
    (hi : i < t.kept.length) : t.kept[i] < t.kept[j] :=
  List.pairwise_iff_getElem.1 t.pairwise_kept i j hi hj hij

/-- Children of nodes that are kept are kept. -/
theorem children_mem_kept {t : Tree} {id : Nat} (hid : id ∈ t.kept) {op : Operator}
    {left right : Nat} (hget : t.arena.get? id = some (.binary op left right)) :
    left ∈ t.kept ∧ right ∈ t.kept := by
  obtain ⟨hl, hr⟩ := (mem_kept.1 hid).children hget
  exact ⟨mem_kept.2 hl, mem_kept.2 hr⟩

/-- The new number of a node: how many that are kept come before it. -/
def newNumber (t : Tree) (id : Nat) : Nat := t.kept.idxOf id

theorem newNumber_lt_length {t : Tree} {id : Nat} (h : id ∈ t.kept) :
    t.newNumber id < t.kept.length :=
  List.idxOf_lt_length_of_mem h

/-- The node that has the number `i` in the pruned tree. -/
def oldNumber (t : Tree) (i : Nat) : Nat := t.kept.getD i 0

theorem oldNumber_eq {t : Tree} {i : Nat} (h : i < t.kept.length) : t.oldNumber i = t.kept[i] :=
  List.getD_eq_getElem _ _ h

theorem oldNumber_newNumber {t : Tree} {id : Nat} (h : id ∈ t.kept) :
    t.oldNumber (t.newNumber id) = id := by
  rw [oldNumber_eq (newNumber_lt_length h)]
  exact List.getElem_idxOf _

theorem newNumber_lt {t : Tree} {id : Nat} (hid : id ∈ t.kept) {i : Nat} (hi : i < t.kept.length)
    (h : id < t.kept[i]) : t.newNumber id < i := by
  have hlt := newNumber_lt_length hid
  have hold : t.kept[t.newNumber id] = id := List.getElem_idxOf hlt
  by_contra hle
  rcases Nat.lt_or_eq_of_le (Nat.le_of_not_lt hle) with hlt' | rfl
  · have := kept_lt_kept hlt' hlt hi
    omega
  · omega

/-- The nodes that are kept, with the new numbers of their children. -/
def keptNodes (t : Tree) : List Node :=
  t.kept.pmap (fun id h => (t.arena.node id h).renumber t.newNumber) t.kept_lt

theorem childrenBelow_keptNodes (t : Tree) (i : Nat) (h : i < t.keptNodes.length) :
    t.keptNodes[i].ChildrenBelow i := by
  have hi : i < t.kept.length := by rwa [keptNodes, List.length_pmap] at h
  have hmem := List.getElem_mem hi
  simp only [keptNodes, List.getElem_pmap]
  have hget := t.arena.get?_eq_node (t.kept_lt _ hmem)
  generalize t.arena.node t.kept[i] _ = node at hget
  cases node with
  | literal text => trivial
  | binary op left right =>
    obtain ⟨hl, hr⟩ := children_mem_kept hmem hget
    obtain ⟨hlt, hrt⟩ := Arena.children_lt hget
    exact ⟨newNumber_lt hl hi hlt, newNumber_lt hr hi hrt⟩

/-- The tree with the nodes that its root reaches alone, numbered in the order they had. -/
def prune (t : Tree) : Tree where
  arena := ⟨t.keptNodes.toArray, t.childrenBelow_keptNodes⟩
  root := t.newNumber t.root
  root_lt := by
    rw [Arena.size, List.size_toArray, keptNodes, List.length_pmap]
    exact newNumber_lt_length t.root_mem_kept

theorem nodeCount_prune (t : Tree) : t.prune.nodeCount = t.kept.length := by
  rw [nodeCount, Arena.size, prune, List.size_toArray, keptNodes, List.length_pmap]

/-- The nodes of the pruned tree stand in the tree under their old numbers. -/
theorem embeds_prune (t : Tree) : t.prune.arena.Embeds t.oldNumber t.arena where
  lt_of_lt i j hij hj := by
    have hj' : j < t.kept.length := t.nodeCount_prune ▸ hj
    rw [oldNumber_eq hj', oldNumber_eq (Nat.lt_trans hij hj')]
    exact kept_lt_kept hij hj' _
  get? i node hget := by
    have hi : i < t.kept.length := t.nodeCount_prune ▸ Arena.lt_size_of_get? hget
    have hmem := List.getElem_mem hi
    have hold := t.arena.get?_eq_node (t.kept_lt _ hmem)
    have hnew : node = (t.arena.node t.kept[i] (t.kept_lt _ hmem)).renumber t.newNumber := by
      obtain ⟨_, hnode⟩ := Arena.get?_eq_some_iff.1 hget
      exact hnode.symm.trans (List.getElem_pmap _ t.kept_lt _)
    rw [oldNumber_eq hi]
    generalize t.arena.node t.kept[i] _ = old at hold hnew
    cases old with
    | literal text => rw [hold, hnew, Node.renumber, Node.renumber]
    | binary op left right =>
      obtain ⟨hl, hr⟩ := children_mem_kept hmem hold
      rw [hold, hnew, Node.renumber, Node.renumber, oldNumber_newNumber hl, oldNumber_newNumber hr]

theorem reaches_iff_oldNumber {t : Tree} {id : Nat} :
    t.arena.Reaches t.root id ↔ ∃ i < t.prune.nodeCount, t.oldNumber i = id := by
  rw [← mem_kept, nodeCount_prune, List.mem_iff_getElem]
  constructor
  · rintro ⟨i, hi, rfl⟩
    exact ⟨i, hi, oldNumber_eq hi⟩
  · rintro ⟨i, hi, rfl⟩
    exact ⟨i, hi, (oldNumber_eq hi).symm⟩

theorem ncard_reaches (t : Tree) :
    {id | t.arena.Reaches t.root id}.ncard = t.prune.nodeCount := by
  have hset : {id | t.arena.Reaches t.root id} = ↑t.kept.toFinset := by
    ext id
    rw [Set.mem_ofPred_eq, List.coe_toFinset, Set.mem_ofPred_eq, mem_kept]
  have hnodup : t.kept.Nodup := t.pairwise_kept.imp Nat.ne_of_lt
  rw [hset, Set.ncard_coe_finset, List.toFinset_card_of_nodup hnodup, nodeCount_prune]

/-! ## Nodes added later -/

/-- The tree in its arena after calls that may add nodes. -/
def after (t : Tree) (calls : List Arena.Call) : Tree where
  arena := (t.arena.run calls).2
  root := t.root
  root_lt := Nat.lt_of_lt_of_le t.root_lt (t.arena.extends_run calls).size_le

/-- A pruned tree has the nodes that the root reaches, in the order they had, each with its
children, and no others; it is shown as the tree is. So is the tree after calls to its arena. -/
theorem alike_prune (t : Tree) :
    t.prune.Alike t ∧
    t.prune.nodeCount = {id | t.arena.Reaches t.root id}.ncard ∧
    (∃ f : Nat → Nat, t.prune.arena.Embeds f t.arena ∧ f t.prune.root = t.root ∧
      ∀ id, t.arena.Reaches t.root id ↔ ∃ i < t.prune.nodeCount, f i = id) ∧
    ∀ calls, t.Alike (t.after calls) := by
  have hroot : t.oldNumber t.prune.root = t.root := oldNumber_newNumber t.root_mem_kept
  exact ⟨alike_of_embeds t.embeds_prune hroot, t.ncard_reaches.symm,
    ⟨t.oldNumber, t.embeds_prune, hroot, fun _ => reaches_iff_oldNumber⟩, fun calls =>
    @alike_of_embeds id (t.after calls) t (t.arena.extends_run calls).embeds rfl⟩

/-- Of six nodes the root reaches three, one of them twice. -/
example :
    let calls : List Arena.Call :=
      [.literal "x", .literal "2", .binary .add 0 1, .binary .mul 1 1, .binary .sub 3 1,
        .literal "7"]
    ∃ t, Tree.ofArena? (Arena.empty.run calls).2 4 = some t ∧
      t.prune.arena.nodes = #[.literal "2", .binary .mul 0 0, .binary .sub 1 0] := by
  decide +kernel

end Tree

end Calculator
