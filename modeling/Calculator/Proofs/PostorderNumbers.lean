import Mathlib
import Calculator.Proofs.Building
import Calculator.Proofs.Walks

/-!
# Trees numbered in postorder

The builder adds each subtree right after the one before it, so that a subtree fills the numbers
from its first leaf to its root (`Arena.Fills`) and those that wait tile the arena (`Arena.Tiles`).
A built tree has therefore a node for each token, under the token's position, and no node is shared
or left out: a walk from the root meets the nodes in the order of their numbers, each by one path
alone (`Tree.ofPostfix_postorder`).
-/

namespace Calculator

/-- The token that a node is built from. -/
def Node.token : Node → Token
  | .literal text => .number text
  | .binary op _ _ => .operator op

namespace Arena

/-! ## Subtrees that fill a stretch of numbers -/

/-- The numbers from `low` to the second one are those of a subtree, operands before operators, and
the second one is its root. -/
inductive Fills (a : Arena) : Nat → Nat → Prop
  | literal {id : Nat} {text : String} : a.get? id = some (.literal text) → Fills a id id
  | binary {low left right : Nat} {op : Operator} : Fills a low left → Fills a (left + 1) right →
      a.get? (right + 1) = some (.binary op left right) → Fills a low (right + 1)

/-- Subtrees, the latest first, that fill the numbers below a bound one after another. -/
inductive Tiles (a : Arena) : List Nat → Nat → Prop
  | nil : Tiles a [] 0
  | cons {rest : List Nat} {low id : Nat} : Tiles a rest low → Fills a low id →
      Tiles a (id :: rest) (id + 1)

theorem Fills.mono {a b : Arena} (hext : a.Extends b) {low id : Nat} (h : Fills a low id) :
    Fills b low id := by
  induction h with
  | literal hget => exact .literal (hext hget)
  | binary _ _ hget ihl ihr => exact .binary ihl ihr (hext hget)

theorem Tiles.mono {a b : Arena} (hext : a.Extends b) {ids : List Nat} {bound : Nat}
    (h : Tiles a ids bound) : Tiles b ids bound := by
  induction h with
  | nil => exact .nil
  | cons _ hfills ih => exact .cons ih (hfills.mono hext)

theorem Tiles.uncons {a : Arena} {id bound : Nat} {rest : List Nat}
    (h : a.Tiles (id :: rest) bound) :
    ∃ low, a.Tiles rest low ∧ a.Fills low id ∧ bound = id + 1 := by
  cases h with
  | cons hrest hfills => exact ⟨_, hrest, hfills, rfl⟩

theorem Fills.le {a : Arena} {low id : Nat} (h : Fills a low id) : low ≤ id := by
  induction h with
  | literal _ => exact Nat.le_refl _
  | binary _ _ _ ihl ihr => omega

/-- A walk of a subtree goes on from the numbers before it, in order. -/
theorem Fills.range_append_walk {a : Arena} {low id : Nat} (h : Fills a low id)
    (hid : id < a.size) : List.range low ++ a.walk id hid = List.range (id + 1) := by
  induction h with
  | @literal id text hget => rw [walk_literal hget, List.range_succ]
  | @binary low left right op hl hr hget ihl ihr =>
    obtain ⟨hllt, hrlt⟩ := children_lt hget
    have hlsize := Nat.lt_trans hllt hid
    have hrsize := Nat.lt_trans hrlt hid
    rw [walk_binary hget hid hlsize hrsize, ← List.append_assoc, ← List.append_assoc, ihl hlsize,
      ihr hrsize, ← List.range_succ]

/-- The root of a subtree reaches the numbers that the subtree fills. -/
theorem Fills.reaches_iff {a : Arena} {low id other : Nat} (h : Fills a low id) :
    a.Reaches id other ↔ low ≤ other ∧ other ≤ id := by
  induction h with
  | literal hget =>
    rw [reaches_literal_iff hget]
    omega
  | binary hl hr hget ihl ihr =>
    have hlle := hl.le
    have hrle := hr.le
    rw [reaches_binary_iff hget, ihl, ihr]
    omega

/-- Two paths from the root of a subtree to one node are the same: the node is the root or is below
one of the operands, and these fill different numbers. -/
theorem Fills.path_eq {a : Arena} {low id other : Nat} (h : Fills a low id) {path path' : List Side}
    (hpath : a.follow? id path = some other) (hpath' : a.follow? id path' = some other) :
    path = path' := by
  induction h generalizing path path' with
  | literal hget =>
    rw [((follow?_literal_iff hget).1 hpath).1, ((follow?_literal_iff hget).1 hpath').1]
  | @binary low left right op hl hr hget ihl ihr =>
    have hleft {rest : List Side} (hrest : a.follow? left rest = some other) : other ≤ left :=
      (hl.reaches_iff.1 ⟨rest, hrest⟩).2
    have hright {rest : List Side} (hrest : a.follow? right rest = some other) :
        left < other ∧ other ≤ right :=
      hr.reaches_iff.1 ⟨rest, hrest⟩
    have hrle := hr.le
    rcases (follow?_binary_iff hget).1 hpath with
      ⟨rfl, hroot⟩ | ⟨rest, rfl, hrest⟩ | ⟨rest, rfl, hrest⟩ <;>
    rcases (follow?_binary_iff hget).1 hpath' with
      ⟨rfl, hroot'⟩ | ⟨rest', rfl, hrest'⟩ | ⟨rest', rfl, hrest'⟩
    · rfl
    · have := hleft hrest'
      omega
    · have := hright hrest'
      omega
    · have := hleft hrest
      omega
    · rw [ihl hrest hrest']
    · have := hleft hrest
      have := hright hrest'
      omega
    · have := hright hrest
      omega
    · have := hright hrest
      have := hleft hrest'
      omega
    · rw [ihr hrest hrest']

/-- To each of its numbers exactly one path leads from the root of a subtree. -/
theorem Fills.existsUnique_path {a : Arena} {low id other : Nat} (h : Fills a low id)
    (hlow : low ≤ other) (hid : other ≤ id) : ∃! path, a.follow? id path = some other := by
  obtain ⟨path, hpath⟩ := h.reaches_iff.2 ⟨hlow, hid⟩
  exact ⟨path, hpath, fun path' hpath' => h.path_eq hpath' hpath⟩

/-- A binary node's operands fill the numbers before it, the left one's first. -/
theorem Fills.of_binary {a : Arena} {low id left right : Nat} {op : Operator} (h : a.Fills low id)
    (hget : a.get? id = some (.binary op left right)) :
    a.Fills low left ∧ a.Fills (left + 1) right ∧ id = right + 1 := by
  cases h with
  | literal hget' => simp [hget'] at hget
  | binary hl hr hget' =>
    rw [hget', Option.some.injEq] at hget
    cases hget
    exact ⟨hl, hr, rfl⟩

/-- The numbers that a subtree fills start at one number only. -/
theorem Fills.first_eq {a : Arena} {low low' id : Nat} (h : a.Fills low id)
    (h' : a.Fills low' id) : low = low' :=
  Nat.le_antisymm (h.reaches_iff.1 (h'.reaches_iff.2 ⟨Nat.le_refl _, h'.le⟩)).1
    (h'.reaches_iff.1 (h.reaches_iff.2 ⟨Nat.le_refl _, h.le⟩)).1

/-- What the root of a subtree reaches is the root of a subtree. -/
theorem Fills.exists_first {a : Arena} {low id other : Nat} (h : a.Fills low id)
    {path : List Side} (hpath : a.follow? id path = some other) : ∃ first, a.Fills first other := by
  induction h generalizing path with
  | literal hget =>
    obtain ⟨-, rfl⟩ := (follow?_literal_iff hget).1 hpath
    exact ⟨_, .literal hget⟩
  | binary hl hr hget ihl ihr =>
    rcases (follow?_binary_iff hget).1 hpath with ⟨-, rfl⟩ | ⟨rest, -, hrest⟩ | ⟨rest, -, hrest⟩
    · exact ⟨_, .binary hl hr hget⟩
    · exact ihl hrest
    · exact ihr hrest

/-- A new node over the latest subtrees keeps the tiling. -/
theorem Tiles.push {a : Arena} {node : Node} {h : node.ChildrenBelow a.size} {rest : List Nat}
    {low : Nat} (hrest : a.Tiles rest low) (hfills : (a.push node h).Fills low a.size) :
    (a.push node h).Tiles (a.size :: rest) (a.push node h).size := by
  rw [size_push]
  exact .cons (hrest.mono (a.extends_push node h)) hfills

/-- The tokens that the nodes are built from, in the order of the nodes' numbers. -/
def tokens (a : Arena) : List Token := a.nodes.toList.map Node.token

theorem tokens_push (a : Arena) (node : Node) (h : node.ChildrenBelow a.size) :
    (a.push node h).tokens = a.tokens ++ [node.token] := by
  rw [tokens, push, Array.toList_push, List.map_append]
  rfl

theorem length_tokens (a : Arena) : a.tokens.length = a.size :=
  (List.length_map ..).trans Array.length_toList

theorem getElem?_tokens (a : Arena) (id : Nat) : a.tokens[id]? = (a.get? id).map Node.token := by
  rw [tokens, List.getElem?_map, Array.getElem?_toList]
  rfl

end Arena

/-! ## The builder -/

namespace Builder

/-- The nodes are those of the tokens so far, and the subtrees that wait tile the arena. -/
structure Numbered (tokens : List Token) (b : Builder) : Prop where
  tokens : b.arena.tokens = tokens
  tiles : b.arena.Tiles b.waiting b.arena.size

theorem numbered_start : Numbered [] start := ⟨rfl, .nil⟩

theorem Numbered.pushLiteral {tokens : List Token} {b : Builder} (h : Numbered tokens b)
    (text : String) : Numbered (tokens ++ [.number text]) (b.pushLiteral text) where
  tokens := by
    rw [← h.tokens]
    exact b.arena.tokens_push (.literal text) trivial
  tiles := h.tiles.push (.literal (b.arena.get?_push_size (.literal text) trivial))

theorem Numbered.pushBinary {tokens : List Token} {b : Builder} (h : Numbered tokens b)
    (op : Operator) {right left : Nat} {rest : List Nat}
    (hwaiting : b.waiting = right :: left :: rest) :
    Numbered (tokens ++ [.operator op]) (b.pushBinary op right left rest hwaiting) := by
  have hr := b.waiting_lt right (by simp [hwaiting])
  have hl := b.waiting_lt left (by simp [hwaiting])
  refine ⟨?_, ?_⟩
  · rw [← h.tokens]
    exact b.arena.tokens_push (.binary op left right) ⟨hl, hr⟩
  · have hext := b.arena.extends_push (.binary op left right) ⟨hl, hr⟩
    have hget := b.arena.get?_push_size (.binary op left right) ⟨hl, hr⟩
    -- The right operand ends at the last number, and the left one just before the right one starts.
    obtain ⟨_, htiles, hright, hsize⟩ := (hwaiting ▸ h.tiles).uncons
    obtain ⟨low, hrest, hleft, rfl⟩ := htiles.uncons
    have hfills {id : Nat} (hid : id = right + 1)
        (hget : (b.arena.push (.binary op left right) ⟨hl, hr⟩).get? id =
          some (.binary op left right)) :
        (b.arena.push (.binary op left right) ⟨hl, hr⟩).Fills low id := by
      subst hid
      exact .binary (hleft.mono hext) (hright.mono hext) hget
    exact hrest.push (hfills hsize hget)

theorem Numbered.push {tokens : List Token} {b b' : Builder} {token : Token}
    (h : Numbered tokens b) (hpush : b.push token = .ok b') : Numbered (tokens ++ [token]) b' := by
  rcases token with text | op | side
  · obtain rfl := Except.ok.inj hpush
    exact h.pushLiteral text
  · rw [Builder.push] at hpush
    split at hpush
    · rename_i right left rest hwaiting
      obtain rfl := Except.ok.inj hpush
      exact h.pushBinary op hwaiting
    · cases hpush
  · cases hpush

theorem Numbered.foldlM {tokens more : List Token} {b b' : Builder} (h : Numbered tokens b)
    (hfold : more.foldlM Builder.push b = .ok b') : Numbered (tokens ++ more) b' := by
  induction more generalizing tokens b with
  | nil =>
    obtain rfl := Except.ok.inj hfold
    rwa [List.append_nil]
  | cons token rest ih =>
    obtain ⟨next, hnext, hrest⟩ := foldlM_cons_eq_ok_iff.1 hfold
    have hnumbered := ih (h.push hnext) hrest
    rwa [List.append_assoc] at hnumbered

/-- The one subtree that is left fills the arena. -/
theorem Numbered.finish {tokens : List Token} {b : Builder} {t : Tree} (h : Numbered tokens b)
    (hfinish : b.finish = .ok t) :
    t.arena.tokens = tokens ∧ t.arena.Fills 0 t.root ∧ t.root + 1 = t.nodeCount := by
  unfold Builder.finish at hfinish
  split at hfinish
  · cases hfinish
  · rename_i root hwaiting
    obtain rfl := Except.ok.inj hfinish
    obtain ⟨_, hrest, hfills, hsize⟩ := (hwaiting ▸ h.tiles).uncons
    cases hrest
    exact ⟨h.tokens, hfills, hsize.symm⟩
  · cases hfinish

end Builder

namespace Tree

/-- A tree that is built has a node for each token in order, and fills its arena. -/
theorem fills_of_ofPostfix {tokens : List Token} {t : Tree} (h : ofPostfix tokens = .ok t) :
    t.arena.tokens = tokens ∧ t.arena.Fills 0 t.root ∧ t.root + 1 = t.nodeCount := by
  obtain ⟨b, hfold, hfinish⟩ := bind_eq_ok_iff.1 h
  exact (Builder.numbered_start.foldlM hfold).finish hfinish

/-- A walk from the root meets the nodes in the order of their numbers. -/
theorem walk_of_ofPostfix {tokens : List Token} {t : Tree} (h : ofPostfix tokens = .ok t) :
    t.arena.walk t.root t.root_lt = List.range t.nodeCount := by
  obtain ⟨-, hfills, hroot⟩ := fills_of_ofPostfix h
  rw [← hroot, ← hfills.range_append_walk t.root_lt, List.range_zero, List.nil_append]

/-- A list that is built is the postfix order of the tree's expression. -/
theorem postorder_of_ofPostfix {tokens : List Token} {t : Tree} (h : ofPostfix tokens = .ok t) :
    t.expr.postorder = tokens :=
  (ofPostfix_eq_ok_iff.1 ⟨t, h, rfl⟩).symm

/-- The tree that is built from a postfix order has a node for each token, under the token's
position: a literal for a number and a binary node for an operator, the root for the last one. To
each node exactly one path leads from the root, and a walk from the root meets the nodes in order,
so that it spells the list. Each expression is the one of the tree that is built from its postfix
order, so lists that are built to trees for the same expression are equal. -/
theorem ofPostfix_postorder :
    (∀ (tokens : List Token) (t : Tree), ofPostfix tokens = .ok t →
      t.nodeCount = tokens.length ∧ t.root + 1 = t.nodeCount ∧
        (∀ id : Nat, (t.arena.get? id).map Node.token = tokens[id]?) ∧
        (∀ id < t.nodeCount, ∃! path, t.arena.follow? t.root path = some id) ∧
        (t.arena.walk t.root t.root_lt).map (fun id => (t.arena.get? id).map Node.token) =
          tokens.map some ∧
        t.expr.postorder = tokens) ∧
    (∀ e : Expr, ∃ t, ofPostfix e.postorder = .ok t ∧ t.expr = e) ∧
    ∀ (tokens tokens' : List Token) (t t' : Tree), ofPostfix tokens = .ok t →
      ofPostfix tokens' = .ok t' → t.expr = t'.expr → tokens = tokens' := by
  refine ⟨fun tokens t h => ?_, fun e => ofPostfix_eq_ok_iff.2 rfl,
    fun tokens tokens' t t' h h' hexpr => ?_⟩
  · obtain ⟨htokens, hfills, hroot⟩ := fills_of_ofPostfix h
    have hcount : t.nodeCount = tokens.length := by
      rw [← htokens, Arena.length_tokens, nodeCount]
    have hnode (id : Nat) : (t.arena.get? id).map Node.token = tokens[id]? := by
      rw [← htokens, Arena.getElem?_tokens]
    refine ⟨hcount, hroot, hnode, fun id hid => hfills.existsUnique_path (Nat.zero_le id) ?_, ?_,
      postorder_of_ofPostfix h⟩
    · omega
    · simp only [walk_of_ofPostfix h, hcount, hnode]
      refine List.ext_getElem (by simp) fun id hid hid' => ?_
      simp only [List.getElem_map, List.getElem_range]
      exact List.getElem?_eq_getElem _
  · rw [← postorder_of_ofPostfix h, ← postorder_of_ofPostfix h', hexpr]

theorem ofPostfix_postorder_difference :
    let tokens := [.number "1", .number "", .operator .sub, .number "x y", .operator .add]
    let tokens' := [.number "1", .number "", .number "x y", .operator .add, .operator .sub]
    ∃ t t', ofPostfix tokens = .ok t ∧ ofPostfix tokens' = .ok t' ∧ t.nodeCount = 5 ∧
      t.root + 1 = t.nodeCount ∧ (t.arena.get? 2).map Node.token = some (.operator .sub) ∧
      (∃! path, t.arena.follow? t.root path = some 1) ∧ t.expr ≠ t'.expr := by
  intro tokens tokens'
  obtain ⟨hcount, hroot, hnode, hpath, -, -⟩ := ofPostfix_postorder.1 tokens _ rfl
  refine ⟨_, _, rfl, rfl, hcount, hroot, hnode 2, hpath 1 (by decide), fun hexpr => ?_⟩
  have heq : tokens = tokens' := ofPostfix_postorder.2.2 tokens tokens' _ _ rfl rfl hexpr
  exact absurd heq (by decide)

end Tree

end Calculator
