import Mathlib
import Calculator.Proofs.Lookups
import Calculator.Proofs.Walks

/-!
# Histories of an arena

An arena is made by calls that add literals and binary nodes; a caller names nodes by 32-bit words,
and a call whose children are not there is refused. `Arena.answers_call` says what one call does,
and `Arena.history` what holds after any number of calls while there are fewer nodes than words:
each node has the number that its call gave, the words that name nodes are those that were given,
and a reader of a tree finds all that it looks up.
-/

namespace Calculator.Arena

/-- A call that adds a node. -/
inductive Call where
  | literal (text : String)
  | binary (op : Operator) (left right : UInt32)
deriving DecidableEq

/-- The node that a call is to add. -/
def Call.node : Call → Node
  | .literal text => .literal text
  | .binary op left right => .binary op left.toNat right.toNat

/-- The answer to a call, the new node's number or none, and the arena after it. -/
def call (a : Arena) : Call → Option UInt32 × Arena
  | .literal text =>
    let (id, a) := a.addLiteral text
    (some (.ofNat id), a)
  | .binary op left right =>
    match a.addBinary? op left.toNat right.toNat with
    | some (id, a) => (some (.ofNat id), a)
    | none => (none, a)

/-- The answers to calls in a row, and the arena after them. -/
def run (a : Arena) : List Call → List (Option UInt32) × Arena
  | [] => ([], a)
  | c :: rest =>
    let (answer, next) := a.call c
    let (answers, last) := next.run rest
    (answer :: answers, last)

/-! ## One call -/

/-- What becomes of a call: its node is added under the next number, and all others stay as they
are; or a child is missing, and nothing changes. -/
inductive Answers (a : Arena) (c : Call) : Option UInt32 × Arena → Prop
  | added {b : Arena} : c.node.ChildrenBelow a.size → b.size = a.size + 1 →
      b.get? a.size = some c.node → a.Extends b → Answers a c (some (.ofNat a.size), b)
  | refused : ¬ c.node.ChildrenBelow a.size → Answers a c (none, a)

theorem answers_push (a : Arena) (c : Call) (h : c.node.ChildrenBelow a.size) :
    Answers a c (some (.ofNat a.size), a.push c.node h) :=
  .added h (a.size_push _ h) (a.get?_push_size _ h) (a.extends_push _ h)

theorem answers_call (a : Arena) (c : Call) : Answers a c (a.call c) := by
  cases c with
  | literal text => exact a.answers_push (.literal text) trivial
  | binary op left right =>
    rw [call, addBinary?]
    by_cases h : left.toNat < a.size ∧ right.toNat < a.size
    · rw [dif_pos h]
      exact a.answers_push (.binary op left right) h
    · rw [dif_neg h]
      exact .refused h

/-- Only a binary node can have a child that is missing. -/
theorem Call.not_childrenBelow_iff {a : Arena} {c : Call} :
    ¬ c.node.ChildrenBelow a.size ↔ ∃ op left right, c = .binary op left right ∧
      ¬ (a.contains left.toNat = true ∧ a.contains right.toNat = true) := by
  cases c with
  | literal text => simp [node, Node.ChildrenBelow]
  | binary op left right => simp [node, Node.ChildrenBelow, contains]

theorem toNat_ofNat_size {a : Arena} (h : a.size < 2 ^ 32) :
    (UInt32.ofNat a.size).toNat = a.size :=
  UInt32.toNat_ofNat_of_lt' h

theorem Answers.extends {a : Arena} {c : Call} {result : Option UInt32 × Arena}
    (h : Answers a c result) : a.Extends result.2 := by
  cases h with
  | added _ _ _ hext => exact hext
  | refused _ => exact .refl a

/-! ## Calls in a row -/

theorem extends_run (a : Arena) (calls : List Call) : a.Extends (a.run calls).2 := by
  induction calls generalizing a with
  | nil => exact .refl a
  | cons c rest ih => exact (a.answers_call c).extends.trans (ih (a.call c).2)

/-- The numbers given are those of the nodes added, as long as there are words for them. -/
theorem some_mem_answers {a : Arena} {calls : List Call} (hsize : (a.run calls).2.size ≤ 2 ^ 32)
    (id : UInt32) :
    some id ∈ (a.run calls).1 ↔ a.size ≤ id.toNat ∧ id.toNat < (a.run calls).2.size := by
  induction calls generalizing a with
  | nil =>
    rw [run]
    simp
  | cons c rest ih =>
    have hanswers := a.answers_call c
    rw [run] at hsize ⊢
    generalize a.call c = result at hanswers hsize ⊢
    cases hanswers with
    | refused _ =>
      rw [List.mem_cons, ih hsize]
      simp
    | @added b _ hb _ _ =>
      have hle : b.size ≤ (b.run rest).2.size := (b.extends_run rest).size_le
      have hword := @toNat_ofNat_size a (by simp only at hsize; omega)
      rw [List.mem_cons, ih hsize, Option.some.injEq, ← UInt32.toNat_inj, hword]
      simp only
      omega

theorem finds_of_ofArena? {a : Arena} {root : Nat} {t : Tree} (h : Tree.ofArena? a root = some t) :
    t.arena = a ∧ t.root = root ∧ Lookup.Finds a.nodes t := by
  rw [Tree.ofArena?] at h
  split at h
  · rename_i hroot
    obtain rfl := Option.some.inj h
    exact ⟨rfl, rfl, Lookup.finds ⟨a, root, hroot⟩⟩
  · cases h

/-- After calls that leave fewer nodes than there are words: a call gives the number of nodes there
were, and adds its node under it and changes no other; it is refused exactly where a child is
missing, and then nothing changes. Children have smaller numbers than their parents, and the words
that name nodes are those that calls gave. A tree starts at every node and at nothing else, and its
readers find all that they look up. -/
theorem history (earlier : List Call) (c : Call) (h : (empty.run earlier).2.size < 2 ^ 32) :
    let a := (empty.run earlier).2
    (∀ id, (a.call c).1 = some id → id.toNat = a.size ∧ (a.call c).2.size = a.size + 1 ∧
      (a.call c).2.get? id.toNat = some c.node ∧
      ∀ other < a.size, (a.call c).2.get? other = a.get? other) ∧
    ((a.call c).1 = none ↔ ∃ op left right, c = .binary op left right ∧
      ¬ (a.contains left.toNat = true ∧ a.contains right.toNat = true)) ∧
    ((a.call c).1 = none → (a.call c).2 = a) ∧
    (∀ id op left right, a.get? id = some (.binary op left right) → left < id ∧ right < id) ∧
    (∀ id : UInt32, a.contains id.toNat = true ↔ some id ∈ (empty.run earlier).1) ∧
    (∀ root, (Tree.ofArena? a root).isSome = a.contains root) ∧
    ∀ root t, Tree.ofArena? a root = some t →
      t.arena = a ∧ t.root = root ∧ Lookup.Finds a.nodes t := by
  intro a
  have hcontains (id : UInt32) : a.contains id.toNat = true ↔ some id ∈ (empty.run earlier).1 := by
    rw [some_mem_answers (Nat.le_of_lt h), contains, decide_eq_true_iff]
    simp [a]
  have hanswers := a.answers_call c
  rcases hcall : a.call c with ⟨answer, b⟩
  rw [hcall] at hanswers
  rw [← Call.not_childrenBelow_iff]
  cases hanswers with
  | added hbelow hsize hnode hext =>
    have hsome : some (UInt32.ofNat a.size) ≠ none := Option.some_ne_none _
    refine ⟨fun id hid => ?_, iff_of_false hsome (not_not_intro hbelow),
      fun hnone => absurd hnone hsome, fun id op left right => children_lt, hcontains,
      Tree.ofArena?_isSome a, fun _ _ => finds_of_ofArena?⟩
    obtain rfl := Option.some.inj hid
    rw [toNat_ofNat_size h]
    refine ⟨rfl, hsize, hnode, fun other hother => ?_⟩
    rw [a.get?_eq_node hother]
    exact hext (a.get?_eq_node hother)
  | refused hmissing =>
    exact ⟨fun id hid => absurd hid.symm (Option.some_ne_none id), iff_of_true rfl hmissing,
      fun _ => rfl, fun id op left right => children_lt, hcontains, Tree.ofArena?_isSome a,
      fun _ _ => finds_of_ofArena?⟩

/-- A node that is both children of another, a refused call between two that are not, and then a
call that adds a node, one that is refused, and a tree. -/
theorem history_shared :
    let earlier : List Call := [.literal "1", .binary .add 0 0, .binary .mul 1 7, .literal "."]
    let a := (empty.run earlier).2
    a.size < 2 ^ 32 ∧
    ((a.call (.binary .sub 2 1)).1 = some 3 ∧ (3 : UInt32).toNat = a.size ∧
      (a.call (.binary .sub 2 1)).2.size = a.size + 1 ∧
      (a.call (.binary .sub 2 1)).2.get? (3 : UInt32).toNat = some (.binary .sub 2 1) ∧
      ∀ other < a.size, (a.call (.binary .sub 2 1)).2.get? other = a.get? other) ∧
    ((a.call (.binary .sub 2 9)).1 = none ∧ (a.call (.binary .sub 2 9)).2 = a) ∧
    (a.get? 1 = some (.binary .add 0 0) ∧ 0 < 1 ∧ 0 < 1) ∧
    ∃ t, Tree.ofArena? a 1 = some t ∧ t.arena = a ∧ t.root = 1 ∧ Lookup.Finds a.nodes t := by
  intro earlier a
  have hsize : a.size < 2 ^ 32 := by decide
  have hadded : (a.call (.binary .sub 2 1)).1 = some 3 := by decide
  have hrefused : (a.call (.binary .sub 2 9)).1 = none := by decide
  have hshared : a.get? 1 = some (.binary .add 0 0) := by decide
  have hroot : 1 < a.size := by decide
  have htree : Tree.ofArena? a 1 = some ⟨a, 1, hroot⟩ := dif_pos hroot
  obtain ⟨hadd, -, -, hchildren, -, -, hfinds⟩ := history earlier (.binary .sub 2 1) hsize
  obtain ⟨-, -, hsame, -⟩ := history earlier (.binary .sub 2 9) hsize
  exact ⟨hsize, ⟨hadded, hadd 3 hadded⟩, ⟨hrefused, hsame hrefused⟩,
    ⟨hshared, hchildren 1 .add 0 0 hshared⟩, ⟨a, 1, hroot⟩, htree, hfinds 1 _ htree⟩

end Calculator.Arena
