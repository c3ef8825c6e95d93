import Mathlib
import Calculator.Proofs.ClosingOrder
import Calculator.Proofs.OpenGroups

/-!
# Segments of the working stack

The open groups cut the working stack into segments of operators. In a segment each operator binds
tighter than the one below it (`Steep`), so a segment has two operators at most, and the number of
open groups bounds the height of the whole stack (`Steep.length_le`). Which groups are open is a
matter of the parentheses alone: those whose `(` no `)` has consumed (`OpenAt`), where a `)` consumes
the `(` from which it is parted by balanced tokens. `Opened` keeps the positions of these `(` beside
the stack, and `stackAt_segments` puts both together for every state of the conversion.
-/

namespace Calculator

theorem Operator.precedence_pos (op : Operator) : 0 < op.precedence := by
  cases op <;> decide

theorem Operator.precedence_le_two (op : Operator) : op.precedence ≤ 2 := by
  cases op <;> decide

namespace Postfix

/-- What waits after the first `n` tokens. -/
def stackAt (tokens : List Token) (n : Nat) : List Waiting := (run [] (tokens.take n)).2

theorem stackAt_succ {tokens : List Token} {n : Nat} {token : Token}
    (h : tokens[n]? = some token) :
    stackAt tokens (n + 1) = (step (stackAt tokens n) token).2 := by
  rw [stackAt, List.take_add_one, h, run_append]
  rfl

/-! ## Precedence in a segment -/

/-- The first entry may wait right above the second: of two operators, the upper one binds
tighter. -/
def Waiting.MayTop : Waiting → Waiting → Prop
  | .operator upper, .operator lower => lower.precedence < upper.precedence
  | .group, _ | _, .group => True

/-- In each segment of the stack precedences increase from the bottom to the top. -/
def Steep (stack : List Waiting) : Prop := stack.IsChain Waiting.MayTop

theorem Steep.push_group {stack : List Waiting} (h : Steep stack) : Steep (.group :: stack) :=
  List.isChain_cons.2 ⟨fun _ _ => trivial, h⟩

/-- What an operator leaves waiting binds looser than it, down to the next open group. -/
theorem Steep.push_operator {stack : List Waiting} (h : Steep stack) (op : Operator) :
    Steep (.operator op :: (closeOperators op stack).2) := by
  rw [closeOperators_eq]
  refine List.isChain_cons.2 ⟨fun kept hkept => ?_, h.suffix (List.dropWhile_suffix _)⟩
  have hopen := List.head?_dropWhile_not (Waiting.closedBy op) stack
  rw [Option.mem_def.1 hkept] at hopen
  cases kept with
  | group => trivial
  | operator kept =>
    have hnot : ¬ kept.closedBy op = true := by simpa [Waiting.closedBy] using hopen
    rw [Operator.closedBy_iff] at hnot
    exact Nat.lt_of_not_le hnot

theorem Steep.step {stack : List Waiting} (h : Steep stack) (token : Token) :
    Steep (step stack token).2 := by
  rcases token with text | op | side | side
  · exact h
  · exact h.push_operator op
  · exact h.push_group
  -- What `)` leaves is a lower part of the stack, its top segment an older one.
  · rw [Postfix.step, closeGroup_eq]
    exact h.suffix ((List.tail_suffix _).trans (List.dropWhile_suffix _))

theorem Steep.run {stack : List Waiting} (h : Steep stack) (tokens : List Token) :
    Steep (run stack tokens).2 := by
  induction tokens generalizing stack with
  | nil => exact h
  | cons token rest ih => exact ih (h.step token)

theorem steep_stackAt (tokens : List Token) (n : Nat) : Steep (stackAt tokens n) :=
  Steep.run List.IsChain.nil _

/-- The precedence of the operator that waits on top, zero if there is none. -/
def topPrecedence : List Waiting → Nat
  | .operator op :: _ => op.precedence
  | _ => 0

theorem topPrecedence_le_two (stack : List Waiting) : topPrecedence stack ≤ 2 := by
  rcases stack with _ | ⟨op | _, stack⟩
  · exact Nat.zero_le 2
  · exact op.precedence_le_two
  · exact Nat.zero_le 2

theorem topPrecedence_lt {op : Operator} {stack : List Waiting}
    (h : ∀ lower ∈ stack.head?, Waiting.MayTop (.operator op) lower) :
    topPrecedence stack < op.precedence := by
  rcases stack with _ | ⟨lower | _, stack⟩
  · exact op.precedence_pos
  · exact h (.operator lower) rfl
  · exact op.precedence_pos

/-- The top segment has no more operators than the precedence of its topmost one, and each group
accounts for three entries: itself and the segment right below it. -/
theorem Steep.length_le_top {stack : List Waiting} (h : Steep stack) :
    stack.length ≤ 3 * stack.count .group + topPrecedence stack := by
  induction stack with
  | nil => exact Nat.zero_le _
  | cons entry stack ih =>
    obtain ⟨hhead, hrest⟩ := List.isChain_cons.1 h
    have hlength := ih hrest
    cases entry with
    | group =>
      have htop := topPrecedence_le_two stack
      rw [List.length_cons, List.count_cons_self]
      omega
    | operator op =>
      have htop := topPrecedence_lt hhead
      rw [List.length_cons, List.count_cons_of_ne (by simp)]
      show _ ≤ _ + op.precedence
      omega

theorem Steep.length_le {stack : List Waiting} (h : Steep stack) :
    stack.length ≤ 3 * stack.count .group + 2 :=
  h.length_le_top.trans (Nat.add_le_add_left (topPrecedence_le_two stack) _)

theorem Steep.segment {stack : List Waiting} (h : Steep stack) {ops : List Operator}
    (hops : ops.map .operator <:+: stack) :
    ops.Pairwise (fun upper lower => lower.precedence < upper.precedence) ∧ ops.length ≤ 2 := by
  have hsteep : Steep (ops.map .operator) := h.infix hops
  have hchain : (ops.map Operator.precedence).IsChain (· > ·) :=
    (List.isChain_map Operator.precedence).2 ((List.isChain_map Waiting.operator).1 hsteep)
  have hgroup : (ops.map Waiting.operator).count .group = 0 := List.count_eq_zero.2 (by simp)
  have hlength := hsteep.length_le
  rw [hgroup, List.length_map] at hlength
  exact ⟨List.pairwise_map.1 hchain.pairwise, hlength⟩

/-! ## Open groups by position -/

theorem count_group_step (stack : List Waiting) (token : Token) :
    (step stack token).2.count .group = depthStep (stack.count .group) token := by
  rcases token with text | op | side | side
  · rfl
  · simp [step, count_group_closeOperators, depthStep]
  · exact List.count_cons_self
  · exact count_group_closeGroup stack

end Postfix

/-- No prefix closes more groups than it opens, and at the end `k` groups are open. -/
structure Token.Opens (k : Nat) (tokens : List Token) : Prop where
  prefix_le : ∀ u, u <+: tokens → u.count (.paren .right) ≤ u.count (.paren .left)
  total : tokens.count (.paren .left) = tokens.count (.paren .right) + k

namespace Token.Opens

variable {k : Nat} {tokens : List Token}

theorem nil : Opens 0 [] :=
  ⟨fun u hu => by rw [List.prefix_nil.1 hu]; exact Nat.le_refl _, rfl⟩

theorem concat (h : Opens k tokens) {token : Token} (hk : token = .paren .right → 0 < k) :
    Opens (Postfix.depthStep k token) (tokens ++ [token]) := by
  have htotal : (tokens ++ [token]).count (.paren .left) =
      (tokens ++ [token]).count (.paren .right) + Postfix.depthStep k token := by
    have hold := h.total
    rw [List.count_append, List.count_append]
    rcases token with text | op | side | side
    · exact hold
    · exact hold
    · show tokens.count _ + 1 = tokens.count _ + 0 + (k + 1)
      omega
    · have hpos := hk rfl
      show tokens.count _ + 0 = tokens.count _ + 1 + (k - 1)
      omega
  refine ⟨fun u hu => ?_, htotal⟩
  rcases List.prefix_concat_iff.1 hu with rfl | hu
  · omega
  · exact h.prefix_le u hu

theorem balanced_iff (h : Opens k tokens) : Balanced tokens ↔ k = 0 := by
  have htotal := h.total
  constructor
  · intro hbalanced
    have hequal := hbalanced.total
    omega
  · intro hk
    exact ⟨h.prefix_le, by omega⟩

end Token.Opens

namespace Postfix

section

variable (tokens : List Token)

/-- The tokens after position `i` and before position `m`. -/
def between (i m : Nat) : List Token := (tokens.take m).drop (i + 1)

/-- The `)` at `m` consumes the `(` at `i`: what stands between them is balanced. -/
structure Consumes (i m : Nat) : Prop where
  left : tokens[i]? = some (.paren .left)
  right : tokens[m]? = some (.paren .right)
  lt : i < m
  balanced : Token.Balanced (between tokens i m)

/-- At `i`, among the first `n` tokens, there is a `(` that none of their `)` has consumed. -/
structure OpenAt (n i : Nat) : Prop where
  lt : i < n
  left : tokens[i]? = some (.paren .left)
  unconsumed : ∀ m < n, ¬ Consumes tokens i m

/-- After `n` tokens the group of the `(` at `i` is still on the stack, on what waited before it was
opened, and `k` groups opened since are above it. -/
structure Stands (n k i : Nat) : Prop where
  opens : Token.Opens k (between tokens i n)
  stack : ∃ upper, stackAt tokens n = upper ++ .group :: stackAt tokens i ∧ upper.count .group = k

/-- The positions of the `(` whose groups are on the stack after `n` tokens, the latest first. -/
structure Opened (n : Nat) (opened : List Nat) : Prop where
  mem_iff : ∀ i, i ∈ opened ↔ OpenAt tokens n i
  nodup : opened.Nodup
  count : (stackAt tokens n).count .group = opened.length
  stands : ∀ k i, opened[k]? = some i → Stands tokens n k i

end

variable {tokens : List Token} {n : Nat} {token : Token}

theorem between_self (n : Nat) : between tokens n (n + 1) = [] :=
  List.drop_eq_nil_of_le (List.length_take_le _ _)

theorem between_succ {i : Nat} (hi : i < n) (h : tokens[n]? = some token) :
    between tokens i (n + 1) = between tokens i n ++ [token] := by
  have hn : n < tokens.length := (List.getElem?_eq_some_iff.1 h).1
  rw [between, List.take_add_one, h, Option.toList_some,
    List.drop_append_of_le_length (by rw [List.length_take]; omega)]
  rfl

theorem openAt_succ {i : Nat} :
    OpenAt tokens (n + 1) i ↔
      (OpenAt tokens n i ∧ ¬ Consumes tokens i n) ∨ i = n ∧ tokens[n]? = some (.paren .left) := by
  constructor
  · rintro ⟨hi, hleft, hnone⟩
    rcases Nat.lt_succ_iff_lt_or_eq.1 hi with hi | rfl
    · exact .inl ⟨⟨hi, hleft, fun m hm => hnone m (by omega)⟩, hnone n (by omega)⟩
    · exact .inr ⟨rfl, hleft⟩
  · rintro (⟨⟨hi, hleft, hnone⟩, hn⟩ | ⟨rfl, hleft⟩)
    · refine ⟨by omega, hleft, fun m hm => ?_⟩
      rcases Nat.lt_succ_iff_lt_or_eq.1 hm with hm | rfl
      · exact hnone m hm
      · exact hn
    · refine ⟨by omega, hleft, fun m hm hc => ?_⟩
      have hlater := hc.lt
      omega

theorem not_consumes (h : tokens[n]? ≠ some (.paren .right)) (i : Nat) : ¬ Consumes tokens i n :=
  fun hc => h hc.right

theorem openAt_succ_of_ne (h : ∀ side, tokens[n]? ≠ some (.paren side)) {i : Nat} :
    OpenAt tokens (n + 1) i ↔ OpenAt tokens n i := by
  rw [openAt_succ, and_iff_left (not_consumes (h .right) i)]
  exact or_iff_left fun hnew => h .left hnew.2

namespace Stands

theorem start (h : tokens[n]? = some (.paren .left)) : Stands tokens (n + 1) 0 n := by
  refine ⟨between_self n ▸ .nil, [], ?_, rfl⟩
  rw [stackAt_succ h]
  rfl

/-- A token changes only how many groups are above, unless it is a `)` and there are none. -/
theorem step {k i : Nat} (h : Stands tokens n k i) (hi : i < n) (htoken : tokens[n]? = some token)
    (hk : token = .paren .right → 0 < k) : Stands tokens (n + 1) (depthStep k token) i := by
  obtain ⟨hopens, upper, hstack, hcount⟩ := h
  refine ⟨between_succ hi htoken ▸ hopens.concat hk, (Postfix.step upper token).2, ?_, ?_⟩
  · have hgroup : token = .paren .right → .group ∈ upper := fun hright =>
      List.count_pos_iff.1 (hcount ▸ hk hright)
    rw [stackAt_succ htoken, hstack, step_append (by simp) hgroup]
  · rw [count_group_step, hcount]

/-- A `)` consumes the `(` of the latest group on the stack and no other. -/
theorem consumes_iff {k i : Nat} (h : Stands tokens n k i) (hi : OpenAt tokens n i)
    (hright : tokens[n]? = some (.paren .right)) : Consumes tokens i n ↔ k = 0 :=
  ⟨fun hc => h.opens.balanced_iff.1 hc.balanced,
    fun hk => ⟨hi.left, hright, hi.lt, h.opens.balanced_iff.2 hk⟩⟩

end Stands

namespace Opened

variable {opened : List Nat}

theorem stands_of_mem (h : Opened tokens n opened) {k i : Nat} (hk : opened[k]? = some i) :
    OpenAt tokens n i ∧ Stands tokens n k i :=
  ⟨(h.mem_iff i).1 (List.mem_of_getElem? hk), h.stands k i hk⟩

theorem keep (h : Opened tokens n opened) (htoken : tokens[n]? = some token)
    (hparen : ∀ side, token ≠ .paren side) : Opened tokens (n + 1) opened := by
  have hdepth (k : Nat) : depthStep k token = k := by
    rcases token with text | op | side
    · rfl
    · rfl
    · exact absurd rfl (hparen side)
  have hne (side : Paren) : tokens[n]? ≠ some (.paren side) := by simpa [htoken] using hparen side
  refine ⟨fun i => ?_, h.nodup, ?_, fun k i hk => ?_⟩
  · rw [openAt_succ_of_ne hne, h.mem_iff]
  · rw [stackAt_succ htoken, count_group_step, h.count, hdepth]
  · obtain ⟨hi, hstands⟩ := h.stands_of_mem hk
    have hstep := hstands.step hi.lt htoken fun hright => absurd hright (hparen .right)
    rwa [hdepth] at hstep

theorem left (h : Opened tokens n opened) (htoken : tokens[n]? = some (.paren .left)) :
    Opened tokens (n + 1) (n :: opened) := by
  refine ⟨fun i => ?_, List.nodup_cons.2 ⟨fun hmem => ?_, h.nodup⟩, ?_, fun k i hk => ?_⟩
  · have hright : ¬ Consumes tokens i n := not_consumes (by simp [htoken]) i
    rw [openAt_succ, List.mem_cons, h.mem_iff, and_iff_left hright, and_iff_left htoken, or_comm]
  · exact Nat.lt_irrefl n ((h.mem_iff n).1 hmem).lt
  · rw [stackAt_succ htoken, count_group_step, h.count]
    rfl
  · cases k with
    | zero =>
      obtain rfl : n = i := by simpa using hk
      exact .start htoken
    | succ k =>
      obtain ⟨hi, hstands⟩ := h.stands_of_mem (show opened[k]? = some i from hk)
      exact hstands.step hi.lt htoken nofun

theorem right (h : Opened tokens n opened) (htoken : tokens[n]? = some (.paren .right)) :
    Opened tokens (n + 1) opened.tail := by
  have htail (k : Nat) : opened.tail[k]? = opened[k + 1]? := List.getElem?_tail
  refine ⟨fun i => ?_, h.nodup.tail, ?_, fun k i hk => ?_⟩
  · have hnew : ¬ (i = n ∧ tokens[n]? = some (.paren .left)) := by simp [htoken]
    rw [openAt_succ, or_iff_left hnew, List.mem_iff_getElem?]
    simp only [htail]
    -- Of the open ones, the `)` consumes the one at the head of the list.
    constructor
    · rintro ⟨k, hk⟩
      obtain ⟨hi, hstands⟩ := h.stands_of_mem hk
      exact ⟨hi, fun hc => Nat.succ_ne_zero k ((hstands.consumes_iff hi htoken).1 hc)⟩
    · rintro ⟨hi, hnot⟩
      obtain ⟨k, hk⟩ := List.mem_iff_getElem?.1 ((h.mem_iff i).2 hi)
      cases k with
      | zero => exact absurd (((h.stands 0 i hk).consumes_iff hi htoken).2 rfl) hnot
      | succ k => exact ⟨k, hk⟩
  · rw [stackAt_succ htoken, count_group_step, h.count, List.length_tail]
    rfl
  · obtain ⟨hi, hstands⟩ := h.stands_of_mem (htail k ▸ hk)
    exact hstands.step hi.lt htoken fun _ => Nat.succ_pos k

/-- Past the last token nothing changes. -/
theorem past (h : Opened tokens n opened) (htoken : tokens[n]? = none) :
    Opened tokens (n + 1) opened := by
  have htake : tokens.take (n + 1) = tokens.take n := by
    rw [List.take_add_one, htoken]
    exact List.append_nil _
  have hstack : stackAt tokens (n + 1) = stackAt tokens n := by rw [stackAt, stackAt, htake]
  refine ⟨fun i => ?_, h.nodup, hstack ▸ h.count, fun k i hk => ?_⟩
  · rw [openAt_succ_of_ne (by simp [htoken]), h.mem_iff]
  · obtain ⟨hopens, hstands⟩ := h.stands k i hk
    exact ⟨by rwa [between, htake], by rwa [hstack]⟩

end Opened

theorem exists_opened (tokens : List Token) (n : Nat) : ∃ opened, Opened tokens n opened := by
  induction n with
  | zero =>
    refine ⟨[], fun i => ?_, .nil, rfl, nofun⟩
    exact ⟨nofun, fun h => absurd h.lt (Nat.not_lt_zero i)⟩
  | succ n ih =>
    obtain ⟨opened, h⟩ := ih
    cases htoken : tokens[n]? with
    | none => exact ⟨_, h.past htoken⟩
    | some token =>
      rcases token with text | op | side | side
      · exact ⟨_, h.keep htoken nofun⟩
      · exact ⟨_, h.keep htoken nofun⟩
      · exact ⟨_, h.left htoken⟩
      · exact ⟨_, h.right htoken⟩

/-- After any number of tokens, the operators next to each other on the stack, with no open group
between them, increase in precedence from the bottom to the top, so there are two of them at most.
The groups on the stack are those of the `(` that no `)` has consumed, each on what waited when it
was opened, and the stack has at most three entries for each of them and two more. -/
theorem stackAt_segments (tokens : List Token) (n : Nat) :
    (∀ ops : List Operator, ops.map .operator <:+: stackAt tokens n →
      ops.Pairwise (fun upper lower => lower.precedence < upper.precedence) ∧ ops.length ≤ 2) ∧
    (stackAt tokens n).count .group = {i | OpenAt tokens n i}.ncard ∧
    (∀ i, OpenAt tokens n i → .group :: stackAt tokens i <:+ stackAt tokens n) ∧
    (stackAt tokens n).length ≤ 3 * {i | OpenAt tokens n i}.ncard + 2 := by
  obtain ⟨opened, h⟩ := exists_opened tokens n
  have hset : {i | OpenAt tokens n i} = ↑opened.toFinset := by
    ext i
    simp [h.mem_iff]
  have hcount : (stackAt tokens n).count .group = {i | OpenAt tokens n i}.ncard := by
    rw [hset, Set.ncard_coe_finset, List.toFinset_card_of_nodup h.nodup, h.count]
  have hsteep := steep_stackAt tokens n
  refine ⟨fun ops hops => hsteep.segment hops, hcount, fun i hi => ?_, hcount ▸ hsteep.length_le⟩
  obtain ⟨k, hk⟩ := List.mem_iff_getElem?.1 ((h.mem_iff i).2 hi)
  obtain ⟨upper, hstack, -⟩ := (h.stands k i hk).stack
  exact ⟨upper, hstack.symm⟩

/-- `1-(2/(3)+4*` up to its end: the inner group has been consumed and the outer one is open. -/
theorem stackAt_segments_nested :
    let tokens : List Token := [.number "1", .operator .sub, .paren .left, .number "2",
      .operator .div, .paren .left, .number "3", .paren .right, .operator .add, .number "4",
      .operator .mul]
    let ops : List Operator := [.mul, .add]
    (ops.map .operator <:+: stackAt tokens 11 ∧
      ops.Pairwise (fun upper lower => lower.precedence < upper.precedence) ∧ ops.length ≤ 2) ∧
    OpenAt tokens 11 2 ∧ .group :: stackAt tokens 2 <:+ stackAt tokens 11 := by
  intro tokens ops
  obtain ⟨hsegment, -, hgroup, -⟩ := stackAt_segments tokens 11
  have hops : ops.map .operator <:+: stackAt tokens 11 := ⟨[], [.group, .operator .sub], rfl⟩
  have hright : ∀ m < 11, tokens[m]? = some (.paren .right) → m = 7 := by decide
  have hopen : OpenAt tokens 11 2 := by
    refine ⟨by decide, rfl, fun m hm hc => ?_⟩
    obtain rfl := hright m hm hc.right
    -- Between them, at 5, there is a `(` that the `)` closes.
    exact absurd hc.balanced.total (by decide)
  exact ⟨⟨hops, hsegment ops hops⟩, hopen, hgroup 2 hopen⟩

end Postfix

end Calculator
