import Mathlib
import Calculator.Proofs.Counting
import Calculator.Proofs.History

/-!
# Building with words for the nodes

The builder once more, as a caller of the arena: the subtrees that wait are named by 32-bit words, a
binary node is added if the arena has both of its children, and the tree is made if it has the root.
As long as there are words for all nodes, this is the builder with its numbers written as words
(`Draft.push_ofBuilder`), so that a token list is built to the same outcome (`Draft.build_eq`) and
neither check ever fails (`Draft.passes_of_foldlM`).
-/

namespace Calculator

theorem Arena.addBinary?_of_lt {a : Arena} {left right : Nat} (op : Operator) (hl : left < a.size)
    (hr : right < a.size) :
    a.addBinary? op left right = some (a.addBinary op left right hl hr) :=
  dif_pos ⟨hl, hr⟩

theorem Tree.ofArena?_of_lt {a : Arena} {root : Nat} (h : root < a.size) :
    ofArena? a root = some ⟨a, root, h⟩ :=
  dif_pos h

/-- A tree under construction whose waiting subtrees are named by words. -/
structure Draft where
  arena : Arena
  waiting : List UInt32

namespace Draft

/-- Nothing built yet. -/
def start : Draft := ⟨.empty, []⟩

/-- The draft after one more token. A binary node that the arena refuses is reported as one whose
operands are missing. -/
def push (d : Draft) : Token → Except StructuralError Draft
  | .number text =>
    let (id, arena) := d.arena.addLiteral text
    .ok ⟨arena, .ofNat id :: d.waiting⟩
  | .operator op =>
    match d.waiting with
    | right :: left :: rest =>
      match d.arena.addBinary? op left.toNat right.toNat with
      | some (id, arena) => .ok ⟨arena, .ofNat id :: rest⟩
      | none => .error (.missingOperand op d.waiting.length)
    | few => .error (.missingOperand op few.length)
  | .paren side => .error (.unexpectedParen side)

/-- The tree, if exactly one subtree is left. A root that the arena does not have is reported as
nothing to build. -/
def finish (d : Draft) : Except StructuralError Tree :=
  match d.waiting with
  | [] => .error .empty
  | [root] =>
    match Tree.ofArena? d.arena root.toNat with
    | some t => .ok t
    | none => .error .empty
  | roots => .error (.multipleRoots roots.length)

/-- The tree of a token list in postfix order. -/
def build (tokens : List Token) : Except StructuralError Tree := do
  (← tokens.foldlM push start).finish

/-- Neither check fails: an operator's two operands are in the arena, and so is the one subtree that
is left. -/
structure Passes (d : Draft) : Prop where
  operands : ∀ op right left rest, d.waiting = right :: left :: rest →
    d.arena.addBinary? op left.toNat right.toNat ≠ none
  root : ∀ root, d.waiting = [root] → Tree.ofArena? d.arena root.toNat ≠ none

/-! ## Numbers as words -/

/-- The builder with its numbers written as words. -/
def ofBuilder (b : Builder) : Draft := ⟨b.arena, b.waiting.map .ofNat⟩

section

variable {b : Builder}

theorem toNat_ofNat_waiting (h : b.arena.size ≤ 2 ^ 32) {id : Nat} (hid : id ∈ b.waiting) :
    (UInt32.ofNat id).toNat = id :=
  UInt32.toNat_ofNat_of_lt' (Nat.lt_of_lt_of_le (b.waiting_lt id hid) h)

theorem push_ofBuilder (h : b.arena.size ≤ 2 ^ 32) (token : Token) :
    (ofBuilder b).push token = (b.push token).map ofBuilder := by
  rcases token with text | op | side
  · rfl
  · have hword (id : Nat) := @toNat_ofNat_waiting b h id
    obtain ⟨arena, waiting, hlt⟩ := b
    rcases waiting with _ | ⟨right, _ | ⟨left, rest⟩⟩
    · rfl
    · rfl
    · have hadd := Arena.addBinary?_of_lt op (hlt left (by simp)) (hlt right (by simp))
      simp only [ofBuilder, List.map_cons, push, hword left (by simp), hword right (by simp), hadd]
      rfl
  · rfl

theorem foldlM_ofBuilder {tokens : List Token} (h : b.arena.size + tokens.length ≤ 2 ^ 32) :
    tokens.foldlM push (ofBuilder b) = (tokens.foldlM Builder.push b).map ofBuilder := by
  induction tokens generalizing b with
  | nil => rfl
  | cons token rest ih =>
    rw [List.length_cons] at h
    rw [List.foldlM_cons, List.foldlM_cons, push_ofBuilder (by omega)]
    cases hpush : b.push token with
    | error error => rfl
    | ok next =>
      have hsize := (Builder.push_ok hpush).1
      exact ih (by omega)

theorem finish_ofBuilder (h : b.arena.size ≤ 2 ^ 32) : (ofBuilder b).finish = b.finish := by
  have hword (id : Nat) := @toNat_ofNat_waiting b h id
  obtain ⟨arena, waiting, hlt⟩ := b
  rcases waiting with _ | ⟨root, _ | ⟨next, rest⟩⟩
  · rfl
  · have htree := Tree.ofArena?_of_lt (hlt root (by simp))
    simp only [ofBuilder, List.map_cons, List.map_nil, finish, hword root (by simp), htree]
    rfl
  · simp [ofBuilder, finish, Builder.finish]

theorem passes_ofBuilder (h : b.arena.size ≤ 2 ^ 32) : (ofBuilder b).Passes := by
  have hnamed : ∀ id ∈ (ofBuilder b).waiting, id.toNat < b.arena.size := by
    intro id hid
    obtain ⟨number, hnumber, rfl⟩ := List.mem_map.1 hid
    rw [toNat_ofNat_waiting h hnumber]
    exact b.waiting_lt number hnumber
  constructor
  · intro op right left rest hwaiting
    have hadd := Arena.addBinary?_of_lt op (hnamed left (by simp [hwaiting]))
      (hnamed right (by simp [hwaiting]))
    exact fun hnone => Option.some_ne_none _ (hadd.symm.trans hnone)
  · intro root hwaiting
    have htree := Tree.ofArena?_of_lt (hnamed root (by simp [hwaiting]))
    exact fun hnone => Option.some_ne_none _ (htree.symm.trans hnone)

end

/-! ## The outcome -/

variable {tokens : List Token}

theorem size_of_foldlM {b : Builder} (h : tokens.foldlM Builder.push Builder.start = .ok b) :
    b.arena.size = tokens.length :=
  (Builder.foldlM_push_ok h).1.trans (Nat.zero_add _)

theorem foldlM_start (h : tokens.length ≤ 2 ^ 32) :
    tokens.foldlM push start = (tokens.foldlM Builder.push Builder.start).map ofBuilder :=
  @foldlM_ofBuilder Builder.start tokens (by simpa [Builder.start] using h)

theorem build_eq (h : tokens.length ≤ 2 ^ 32) : build tokens = Tree.ofPostfix tokens := by
  rw [build, Tree.ofPostfix, foldlM_start h]
  cases hbuilder : tokens.foldlM Builder.push Builder.start with
  | error error => rfl
  | ok b => exact finish_ofBuilder (size_of_foldlM hbuilder ▸ h)

/-- The checks pass wherever building has come. -/
theorem passes_of_foldlM {d : Draft} (h : tokens.length ≤ 2 ^ 32)
    (hfold : tokens.foldlM push start = .ok d) : d.Passes := by
  rw [foldlM_start h] at hfold
  obtain ⟨b, hbuilder, rfl⟩ := map_eq_ok_iff.1 hfold
  exact passes_ofBuilder (size_of_foldlM hbuilder ▸ h)

end Draft

end Calculator
