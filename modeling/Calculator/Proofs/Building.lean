import Mathlib
import Calculator.Tree.Build

/-!
# What the builder builds

The builder's stack holds numbers of nodes; `Builder.exprs` reads them as the expressions they stand
for. Nodes that are there already keep their expressions when a node is added
(`Arena.exprAt_push`), so the builder does to expressions what `Expr.shift` does
(`Builder.push_exprs`), and `Tree.ofPostfix_eq_ok_iff` follows: a token list is built to a tree for
an expression exactly if it is the expression's postfix order.
-/

namespace Calculator

/-! ## Steps that may fail -/

section

variable {ε α β : Type}

theorem bind_eq_ok_iff {x : Except ε α} {f : α → Except ε β} {y : β} :
    x >>= f = .ok y ↔ ∃ a, x = .ok a ∧ f a = .ok y := by
  cases x <;> simp [bind, Except.bind]

theorem bind_eq_error_iff {x : Except ε α} {f : α → Except ε β} {error : ε} :
    x >>= f = .error error ↔ x = .error error ∨ ∃ a, x = .ok a ∧ f a = .error error := by
  cases x <;> simp [bind, Except.bind]

theorem map_eq_ok_iff {x : Except ε α} {f : α → β} {y : β} :
    x.map f = .ok y ↔ ∃ a, x = .ok a ∧ f a = y := by
  cases x <;> simp [Except.map]

variable {f : β → α → Except ε β} {a : α} {rest : List α} {b : β}

theorem foldlM_cons_eq_ok_iff {last : β} :
    (a :: rest).foldlM f b = .ok last ↔
      ∃ next, f b a = .ok next ∧ rest.foldlM f next = .ok last := by
  rw [List.foldlM_cons, bind_eq_ok_iff]

theorem foldlM_cons_eq_error_iff {error : ε} :
    (a :: rest).foldlM f b = .error error ↔
      f b a = .error error ∨ ∃ next, f b a = .ok next ∧ rest.foldlM f next = .error error := by
  rw [List.foldlM_cons, bind_eq_error_iff]

end

/-! ## Expressions of nodes in a growing arena -/

theorem Node.combine_eq {α : Type} {literal : String → α} {binary : Operator → α → α → α}
    {bound : Nat} {f g : (id : Nat) → id < bound → α} {node node' : Node} (hnode : node = node')
    (h : ∀ id hid, f id hid = g id hid) (below : node.ChildrenBelow bound)
    (below' : node'.ChildrenBelow bound) :
    node.combine literal binary f below = node'.combine literal binary g below' := by
  subst hnode
  exact combine_congr h node below

namespace Arena

theorem node_push (a : Arena) (node : Node) (h : node.ChildrenBelow a.size) {id : Nat}
    (hid : id < a.size) (hid' : id < (a.push node h).size) :
    (a.push node h).node id hid' = a.node id hid :=
  Array.getElem_push_lt hid

theorem node_push_size (a : Arena) (node : Node) (h : node.ChildrenBelow a.size)
    (hid : a.size < (a.push node h).size) : (a.push node h).node a.size hid = node :=
  Array.getElem_push_eq

/-- Adding a node keeps the expressions of those that are there. -/
theorem exprAt_push (a : Arena) (node : Node) (h : node.ChildrenBelow a.size) (id : Nat)
    (hid : id < a.size) (hid' : id < (a.push node h).size) :
    (a.push node h).exprAt id hid' = a.exprAt id hid := by
  induction id using Nat.strongRecOn with
  | ind id ih =>
    rw [exprAt, exprAt]
    exact Node.combine_eq (a.node_push node h hid hid')
      (fun child hc => ih child hc (Nat.lt_trans hc hid) (Nat.lt_trans hc hid')) _ _

theorem exprAt_push_size (a : Arena) (node : Node) (h : node.ChildrenBelow a.size)
    (hid : a.size < (a.push node h).size) :
    (a.push node h).exprAt a.size hid = node.combine Expr.literal Expr.binary a.exprAt h := by
  rw [exprAt]
  exact Node.combine_eq (a.node_push_size node h hid)
    (fun child hc => a.exprAt_push node h child hc _) _ _

end Arena

/-! ## The stack as expressions -/

namespace Expr

/-- The stack of expressions after one more token: an operator joins the two latest. -/
def shift (stack : List Expr) : Token → Except StructuralError (List Expr)
  | .number text => .ok (.literal text :: stack)
  | .operator op =>
    match stack with
    | right :: left :: rest => .ok (.binary op left right :: rest)
    | few => .error (.missingOperand op few.length)
  | .paren side => .error (.unexpectedParen side)

/-- The expression, if the stack holds exactly one. -/
def only : List Expr → Except StructuralError Expr
  | [] => .error .empty
  | [e] => .ok e
  | stack => .error (.multipleRoots stack.length)

end Expr

namespace Builder

/-- The expressions that wait for an operator, the latest first. -/
def exprs (b : Builder) : List Expr :=
  b.waiting.pmap b.arena.exprAt b.waiting_lt

/-- A new node on top of a stack of older ones. -/
theorem pmap_exprAt_push (a : Arena) (node : Node) (h : node.ChildrenBelow a.size)
    (ids : List Nat) (hids : ∀ id ∈ ids, id < a.size)
    (hids' : ∀ id ∈ a.size :: ids, id < (a.push node h).size) :
    (a.size :: ids).pmap (a.push node h).exprAt hids' =
      node.combine Expr.literal Expr.binary a.exprAt h :: ids.pmap a.exprAt hids := by
  rw [List.pmap_cons, a.exprAt_push_size node h]
  exact congrArg _ (List.pmap_congr_left ids fun id _ hid' hid => a.exprAt_push node h id hid hid')

theorem pushLiteral_exprs (b : Builder) (text : String) :
    (b.pushLiteral text).exprs = .literal text :: b.exprs :=
  pmap_exprAt_push b.arena (.literal text) trivial b.waiting b.waiting_lt _

theorem pushBinary_exprs (b : Builder) (op : Operator) {right left : Nat} {rest : List Nat}
    (h : b.waiting = right :: left :: rest) :
    ∃ r l es, b.exprs = r :: l :: es ∧
      (b.pushBinary op right left rest h).exprs = .binary op l r :: es := by
  obtain ⟨arena, waiting, hlt⟩ := b
  obtain rfl : waiting = right :: left :: rest := h
  have hr := hlt right (by simp)
  have hl := hlt left (by simp)
  exact ⟨_, _, _, rfl, pmap_exprAt_push arena (.binary op left right) ⟨hl, hr⟩ rest _ _⟩

/-- The builder does to the expressions what `Expr.shift` does. -/
theorem push_exprs (b : Builder) (token : Token) :
    (b.push token).map exprs = Expr.shift b.exprs token := by
  cases token with
  | number text => exact congrArg Except.ok (b.pushLiteral_exprs text)
  | paren side => rfl
  | operator op =>
    obtain ⟨arena, waiting, hlt⟩ := b
    -- With fewer than two operands both report how many there are.
    rcases waiting with _ | ⟨right, _ | ⟨left, rest⟩⟩
    · rfl
    · rfl
    · obtain ⟨r, l, es, hes, hpush⟩ := pushBinary_exprs ⟨arena, _, hlt⟩ op rfl
      rw [hes]
      exact congrArg Except.ok hpush

theorem foldlM_push_exprs (b : Builder) (tokens : List Token) :
    (tokens.foldlM push b).map exprs = tokens.foldlM Expr.shift b.exprs := by
  induction tokens generalizing b with
  | nil => rfl
  | cons token rest ih =>
    rw [List.foldlM_cons, List.foldlM_cons, ← push_exprs]
    cases b.push token with
    | error e => rfl
    | ok b' => exact ih b'

theorem finish_expr (b : Builder) : b.finish.map Tree.expr = Expr.only b.exprs := by
  obtain ⟨arena, waiting, hlt⟩ := b
  rcases waiting with _ | ⟨root, _ | ⟨y, rest⟩⟩
  · rfl
  · rfl
  · simp only [finish, exprs, List.pmap_cons, Expr.only, Except.map, List.length_cons,
      List.length_pmap]

end Builder

/-- The builder's tree stands for what the stack of expressions leaves. -/
theorem Tree.ofPostfix_map_expr (tokens : List Token) :
    (ofPostfix tokens).map expr = tokens.foldlM Expr.shift [] >>= Expr.only := by
  have h := Builder.foldlM_push_exprs Builder.start tokens
  rw [show Builder.start.exprs = [] from rfl] at h
  rw [ofPostfix, ← h]
  cases tokens.foldlM Builder.push Builder.start with
  | error e => rfl
  | ok b => exact b.finish_expr

/-! ## Postfix orders -/

namespace Expr

theorem foldlM_shift_postorder (e : Expr) (stack : List Expr) :
    e.postorder.foldlM shift stack = .ok (e :: stack) := by
  induction e generalizing stack with
  | literal text => rfl
  | binary op left right ihl ihr =>
    rw [postorder, List.foldlM_append, List.foldlM_append, ihl]
    show (right.postorder.foldlM shift (left :: stack) >>= _) = _
    rw [ihr]
    rfl

/-- The tokens of the expressions on a stack, the latest last. -/
def spelled (stack : List Expr) : List Token := stack.reverse.flatMap postorder

theorem spelled_cons (e : Expr) (stack : List Expr) :
    spelled (e :: stack) = spelled stack ++ e.postorder := by
  simp [spelled]

/-- A token that is taken is added at the end of what the stack spells. -/
theorem spelled_shift {stack stack' : List Expr} {token : Token}
    (h : shift stack token = .ok stack') : spelled stack' = spelled stack ++ [token] := by
  unfold shift at h
  split at h
  · obtain rfl := Except.ok.inj h
    exact spelled_cons _ _
  · split at h
    · obtain rfl := Except.ok.inj h
      simp only [spelled_cons, postorder, List.append_assoc]
    · cases h
  · cases h

theorem spelled_foldlM_shift {stack stack' : List Expr} {tokens : List Token}
    (h : tokens.foldlM shift stack = .ok stack') : spelled stack' = spelled stack ++ tokens := by
  induction tokens generalizing stack with
  | nil =>
    obtain rfl := Except.ok.inj h
    rw [List.append_nil]
  | cons token rest ih =>
    obtain ⟨next, hshift, hrest⟩ := foldlM_cons_eq_ok_iff.1 h
    rw [ih hrest, spelled_shift hshift, List.append_assoc, List.singleton_append]

theorem only_eq_ok {stack : List Expr} {e : Expr} (h : only stack = .ok e) : stack = [e] := by
  unfold only at h
  split at h
  · cases h
  · obtain rfl := Except.ok.inj h
    rfl
  · cases h

end Expr

/-- The expression of a tree that is built is the one that the stack of expressions leaves. -/
theorem Tree.expr_of_ofPostfix {tokens : List Token} {t : Tree} (h : ofPostfix tokens = .ok t) :
    tokens.foldlM Expr.shift [] = .ok [t.expr] := by
  have hmap := ofPostfix_map_expr tokens
  rw [h] at hmap
  obtain ⟨stack, hfold, honly⟩ := bind_eq_ok_iff.1 hmap.symm
  rwa [← Expr.only_eq_ok honly]

/-- A token list is built to a tree for an expression exactly if it is the expression's postfix
order. -/
theorem Tree.ofPostfix_eq_ok_iff {tokens : List Token} {e : Expr} :
    (∃ t, ofPostfix tokens = .ok t ∧ t.expr = e) ↔ tokens = e.postorder := by
  constructor
  · rintro ⟨t, ht, rfl⟩
    have hspell := Expr.spelled_foldlM_shift (expr_of_ofPostfix ht)
    rw [Expr.spelled_cons] at hspell
    exact hspell.symm
  · rintro rfl
    have hmap := ofPostfix_map_expr e.postorder
    rw [Expr.foldlM_shift_postorder] at hmap
    exact map_eq_ok_iff.1 hmap

end Calculator
