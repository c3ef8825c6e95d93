import Mathlib
import Calculator.Proofs.Alternation
import Calculator.Proofs.WorkingStack

/-!
# Open groups in the conversion

An operator closes nothing below an open group, and `)` nothing below the latest one. So a stack may
have more open groups at its bottom without any change to what is put out: only how many of them are
left differs (`run_above`). Parentheses that are missing at the outer ends of a token list are
therefore not missed (`toPostfix_enclosed`). Balanced tokens close no group but their own, so that a
stack below them is left as it was (`run_append_of_closes`), and a group is converted as its tokens
alone are (`run_group`): in any tokens it takes the place of one operand (`toPostfix_operand`).
-/

namespace Calculator.Postfix

/-! ## Groups at the bottom -/

/-- The stack with `k` more open groups at its bottom. -/
def above (k : Nat) (stack : List Waiting) : List Waiting := stack ++ List.replicate k .group

theorem drain_above (k : Nat) (stack : List Waiting) : drain (above k stack) = drain stack := by
  have h : drain (List.replicate k .group) = [] := by
    induction k with
    | zero => rfl
    | succ k ih => exact ih
  rw [above, drain_append, h, List.append_nil]

theorem closeGroup_above (k : Nat) (stack : List Waiting) :
    ∃ left, closeGroup (above k stack) = ((closeGroup stack).1, above left (closeGroup stack).2) := by
  by_cases h : .group ∈ stack
  · exact ⟨k, closeGroup_append h _⟩
  · -- The `)` finds no group in the stack and takes one of those at the bottom, if there is one.
    have hstack := closeGroup_none h
    cases k with
    | zero => exact ⟨0, by simp [above]⟩
    | succ k =>
      refine ⟨k, ?_⟩
      rw [above, List.replicate_succ, closeGroup_latest h, hstack]
      rfl

theorem closeOperators_above (incoming : Operator) (k : Nat) (stack : List Waiting) :
    closeOperators incoming (above k stack) =
      ((closeOperators incoming stack).1, above k (closeOperators incoming stack).2) := by
  refine closeOperators_append (fun op h => ?_) stack
  cases k <;> simp [List.replicate_succ] at h

theorem step_above (k : Nat) (stack : List Waiting) (token : Token) :
    ∃ left, step (above k stack) token = ((step stack token).1, above left (step stack token).2) := by
  rcases token with text | op | side | side
  · exact ⟨k, rfl⟩
  · refine ⟨k, ?_⟩
    rw [step, closeOperators_above]
    rfl
  · exact ⟨k, rfl⟩
  · exact closeGroup_above k stack

theorem run_above (k : Nat) (stack : List Waiting) (tokens : List Token) :
    ∃ left, run (above k stack) tokens = ((run stack tokens).1, above left (run stack tokens).2) := by
  induction tokens generalizing k stack with
  | nil => exact ⟨k, rfl⟩
  | cons token rest ih =>
    obtain ⟨next, hstep⟩ := step_above k stack token
    obtain ⟨left, hrun⟩ := ih next (step stack token).2
    exact ⟨left, by simp only [run_cons, hstep, hrun]⟩

theorem run_replicate_left (i : Nat) (stack : List Waiting) :
    run stack (List.replicate i (.paren .left)) = ([], List.replicate i .group ++ stack) := by
  induction i generalizing stack with
  | zero => rfl
  | succ i ih =>
    show run (.group :: stack) (List.replicate i (.paren .left)) = _
    rw [ih, List.replicate_succ', List.append_assoc, List.singleton_append]

/-- Groups closed at the end are those that would have been dropped. -/
theorem run_replicate_right (j : Nat) (stack : List Waiting) :
    (run stack (List.replicate j (.paren .right))).1 ++
      drain (run stack (List.replicate j (.paren .right))).2 = drain stack := by
  induction j generalizing stack with
  | zero => rfl
  | succ j ih =>
    rw [List.replicate_succ, run_cons, List.append_assoc, ih]
    exact drain_closeGroup stack

/-- Any number of `(` before and of `)` after a token list change nothing. -/
theorem toPostfix_enclosed (i j : Nat) (tokens : List Token) :
    Token.toPostfix (List.replicate i (.paren .left) ++ tokens ++ List.replicate j (.paren .right)) =
      Token.toPostfix tokens := by
  obtain ⟨left, hrun⟩ := run_above i [] tokens
  have hleft : run [] (List.replicate i (.paren .left) ++ tokens) =
      ((run [] tokens).1, above left (run [] tokens).2) := by
    rw [run_append, run_replicate_left, List.append_nil]
    exact hrun
  rw [toPostfix_eq, toPostfix_eq, run_append, hleft, List.append_assoc, run_replicate_right,
    drain_above]

/-! ## Balanced tokens -/

theorem count_group_closeOperators (incoming : Operator) (stack : List Waiting) :
    (closeOperators incoming stack).2.count .group = stack.count .group := by
  induction stack with
  | nil => rfl
  | cons entry stack ih =>
    cases entry with
    | group => rfl
    | operator op =>
      rw [closeOperators]
      split
      · simpa using ih
      · rfl

theorem count_group_closeGroup (stack : List Waiting) :
    (closeGroup stack).2.count .group = stack.count .group - 1 := by
  induction stack with
  | nil => rfl
  | cons entry stack ih =>
    cases entry with
    | group => simp [closeGroup]
    | operator op => simpa [closeGroup] using ih

section

variable {lower : List Waiting} (hlower : ∀ op, lower.head? ≠ some (.operator op))
include hlower

/-- A step does not reach below an open group, unless it is a `)` that finds no other above it. -/
theorem step_append {token : Token} {upper : List Waiting}
    (hgroup : token = .paren .right → .group ∈ upper) :
    step (upper ++ lower) token = ((step upper token).1, (step upper token).2 ++ lower) := by
  rcases token with text | op | side | side
  · rfl
  · rw [step, step, closeOperators_append fun top h => absurd h (hlower top)]
    rfl
  · rfl
  · exact closeGroup_append (hgroup rfl) lower

/-- While the tokens to come close no group below the upper part of the stack, a step does not reach
below it. -/
theorem step_append_of_closes {token : Token} {rest : List Token} {upper : List Waiting}
    (hcloses : Token.Closes (upper.count .group) (token :: rest)) :
    step (upper ++ lower) token = ((step upper token).1, (step upper token).2 ++ lower) ∧
      Token.Closes ((step upper token).2.count .group) rest := by
  refine ⟨step_append hlower ?_, ?_⟩
  · rintro rfl
    exact List.count_pos_iff.1 (Token.closes_right.1 hcloses).1
  · rcases token with text | op | side | side
    · exact hcloses
    · simpa [step, count_group_closeOperators, Token.Closes] using hcloses
    · simpa [step, Token.Closes] using hcloses
    · rw [step, count_group_closeGroup]
      exact (Token.closes_right.1 hcloses).2

theorem run_append_of_closes {tokens : List Token} {upper : List Waiting}
    (hcloses : Token.Closes (upper.count .group) tokens) :
    run (upper ++ lower) tokens = ((run upper tokens).1, (run upper tokens).2 ++ lower) ∧
      .group ∉ (run upper tokens).2 := by
  induction tokens generalizing upper with
  | nil => exact ⟨rfl, List.count_eq_zero.1 hcloses⟩
  | cons token rest ih =>
    obtain ⟨hstep, hrest⟩ := step_append_of_closes hlower hcloses
    obtain ⟨hrun, hgroup⟩ := ih hrest
    refine ⟨?_, hgroup⟩
    simp only [run_cons, hstep, hrun]

end

/-- A group is put out as its tokens alone are, and leaves the stack as it was. -/
theorem run_group {tokens : List Token} (h : Token.Balanced tokens) (stack : List Waiting) :
    run stack (.paren .left :: (tokens ++ [.paren .right])) =
      (Token.toPostfix tokens, stack) := by
  obtain ⟨hrun, hgroup⟩ := @run_append_of_closes (.group :: stack) (by simp) tokens []
    (Token.balanced_iff_closes.1 h)
  rw [List.nil_append] at hrun
  have hclose := closeGroup_latest hgroup stack
  simp only [step, run_append, hrun, hclose, run, List.nil_append, List.append_nil]
  rw [toPostfix_eq]

/-- Two groups and an operator between them. -/
theorem toPostfix_groups {t u : List Token} (ht : Token.Balanced t) (hu : Token.Balanced u)
    (op : Operator) :
    Token.toPostfix (Token.paren .left :: (t ++ [Token.paren .right]) ++
        Token.operator op :: Token.paren .left :: (u ++ [Token.paren .right])) =
      Token.toPostfix t ++ Token.toPostfix u ++ [Token.operator op] := by
  have hrest : run [] (.operator op :: .paren .left :: (u ++ [.paren .right])) =
      (Token.toPostfix u, [.operator op]) := by
    rw [run_cons, run_group hu]
    rfl
  rw [toPostfix_eq, run_append, run_group ht, hrest]
  rfl

/-! ## One operand among other tokens -/

/-- Tokens that leave the stack as they find it are put out in one piece, and what is put out before
and after that piece is the same for all of them. -/
theorem toPostfix_of_run {before inner out : List Token}
    (h : run (run [] before).2 inner = (out, (run [] before).2)) (after : List Token) :
    Token.toPostfix (before ++ inner ++ after) =
      (run [] before).1 ++ out ++
        ((run (run [] before).2 after).1 ++ drain (run (run [] before).2 after).2) := by
  rw [toPostfix_eq, run_append, run_append, h]
  simp only [List.append_assoc]

/-- A group is put out where an operand in its place would be, as its tokens alone are, and nothing
around it changes. Neither the tokens around it nor those in it need to be well formed, but for the
balance of the group. -/
theorem toPostfix_operand (before after : List Token) :
    ∃ front back,
      (∀ text, Token.toPostfix (before ++ [Token.number text] ++ after) =
        front ++ [Token.number text] ++ back) ∧
      ∀ inner, Token.Balanced inner →
        Token.toPostfix (before ++ [Token.paren .left] ++ inner ++ [Token.paren .right] ++ after) =
          front ++ Token.toPostfix inner ++ back := by
  refine ⟨_, _, fun text => toPostfix_of_run rfl after, fun inner hinner => ?_⟩
  have hgroup := toPostfix_of_run (run_group hinner (run [] before).2) after
  simpa only [List.append_assoc, List.cons_append, List.nil_append] using hgroup

/-- `)1*(2-` before and `)+)3` after the group `+4()5`, none of them a sentence. -/
theorem toPostfix_operand_misplaced :
    let before : List Token := [.paren .right, .number "1", .operator .mul, .paren .left,
      .number "2", .operator .sub]
    let inner : List Token := [.operator .add, .number "4", .paren .left, .paren .right,
      .number "5"]
    let after : List Token := [.paren .right, .operator .add, .paren .right, .number "3"]
    Token.Balanced inner ∧ ∃ front back,
      (∀ text, Token.toPostfix (before ++ [Token.number text] ++ after) =
        front ++ [Token.number text] ++ back) ∧
      Token.toPostfix (before ++ [Token.paren .left] ++ inner ++ [Token.paren .right] ++ after) =
        front ++ Token.toPostfix inner ++ back := by
  intro before inner after
  have hinner : Token.Balanced inner := Token.balanced_iff_closes.2 rfl
  obtain ⟨front, back, hnumber, hgroup⟩ := toPostfix_operand before after
  exact ⟨hinner, front, back, hnumber, hgroup inner hinner⟩

end Calculator.Postfix
