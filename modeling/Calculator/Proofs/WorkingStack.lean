import Mathlib
import Calculator.Postfix

/-!
# The working stack of the conversion

Closing operators and closing a group both put out a top segment of the stack and keep the rest
(`closeOperators_eq`, `closeGroup_eq`), and neither reaches below an open group
(`closeOperators_append`, `closeGroup_append`). No step of the conversion loses or repeats a token:
`toPostfix_perm` says that the postfix order has exactly the tokens that are no parentheses.
-/

namespace Calculator

/-- Whether the token is a parenthesis. -/
def Token.isParen : Token → Bool
  | .paren _ => true
  | _ => false

namespace Postfix

/-- Whether an entry is an operator, not an open group. -/
def Waiting.isOperator : Waiting → Bool
  | .operator _ => true
  | .group => false

/-- Whether an entry is an operator that `incoming` closes. -/
def Waiting.closedBy (incoming : Operator) : Waiting → Bool
  | .operator waiting => waiting.closedBy incoming
  | .group => false

theorem run_cons (stack : List Waiting) (token : Token) (rest : List Token) :
    run stack (token :: rest) =
      ((step stack token).1 ++ (run (step stack token).2 rest).1,
        (run (step stack token).2 rest).2) := rfl

theorem toPostfix_eq (tokens : List Token) :
    Token.toPostfix tokens = (run [] tokens).1 ++ drain (run [] tokens).2 := rfl

/-! ## What waits is put out from the top -/

@[simp] theorem drain_nil : drain [] = [] := rfl

@[simp] theorem drain_operator (op : Operator) (stack : List Waiting) :
    drain (.operator op :: stack) = .operator op :: drain stack := rfl

@[simp] theorem drain_group (stack : List Waiting) : drain (.group :: stack) = drain stack := rfl

theorem drain_append (upper lower : List Waiting) :
    drain (upper ++ lower) = drain upper ++ drain lower :=
  List.filterMap_append

theorem drain_map_operator (ops : List Operator) :
    drain (ops.map .operator) = ops.map .operator := by
  induction ops with
  | nil => rfl
  | cons op ops ih => rw [List.map_cons, drain_operator, ih, List.map_cons]

/-- An incoming operator puts out the longest top segment that it closes. -/
theorem closeOperators_eq (incoming : Operator) (stack : List Waiting) :
    closeOperators incoming stack =
      (drain (stack.takeWhile (Waiting.closedBy incoming)),
        stack.dropWhile (Waiting.closedBy incoming)) := by
  induction stack with
  | nil => rfl
  | cons entry stack ih =>
    cases entry with
    | group => rfl
    | operator waiting =>
      rw [closeOperators, ih, List.takeWhile_cons, List.dropWhile_cons]
      by_cases h : waiting.closedBy incoming = true
      · simp only [Waiting.closedBy, h, if_true, drain_operator]
      · simp only [Waiting.closedBy, h, if_false, drain_nil, Bool.false_eq_true]

/-- `)` puts out the operators above the latest group and drops the group. -/
theorem closeGroup_eq (stack : List Waiting) :
    closeGroup stack =
      (drain (stack.takeWhile Waiting.isOperator),
        (stack.dropWhile Waiting.isOperator).tail) := by
  induction stack with
  | nil => rfl
  | cons entry stack ih =>
    cases entry with
    | group => rfl
    | operator waiting =>
      rw [closeGroup, ih, List.takeWhile_cons, List.dropWhile_cons]
      simp only [Waiting.isOperator, if_true, drain_operator]

/-! ## Two parts of a stack -/

/-- An operator that closes nothing of the lower part of a stack closes of the upper part what it
would close of it alone. -/
theorem closeOperators_append {incoming : Operator} {lower : List Waiting}
    (h : ∀ op, lower.head? = some (.operator op) → op.precedence < incoming.precedence)
    (upper : List Waiting) :
    closeOperators incoming (upper ++ lower) =
      ((closeOperators incoming upper).1, (closeOperators incoming upper).2 ++ lower) := by
  induction upper with
  | nil =>
    rcases lower with _ | ⟨op | _, lower⟩
    · rfl
    · have hlt := h op rfl
      have hopen : ¬ op.closedBy incoming = true := fun hclosed =>
        absurd (Operator.closedBy_iff.1 hclosed) (by omega)
      rw [List.nil_append, closeOperators, if_neg hopen]
      rfl
    · rfl
  | cons entry upper ih =>
    cases entry with
    | group => rfl
    | operator op =>
      simp only [List.cons_append, closeOperators, ih]
      split <;> rfl

theorem closeGroup_append {upper : List Waiting} (h : .group ∈ upper) (lower : List Waiting) :
    closeGroup (upper ++ lower) = ((closeGroup upper).1, (closeGroup upper).2 ++ lower) := by
  induction upper with
  | nil => cases h
  | cons entry upper ih =>
    cases entry with
    | group => rfl
    | operator op =>
      have hupper : .group ∈ upper := by simpa using h
      simp only [List.cons_append, closeGroup, ih hupper]

/-- The latest group is the first one from the top. -/
theorem closeGroup_latest {upper : List Waiting} (h : .group ∉ upper) (lower : List Waiting) :
    closeGroup (upper ++ .group :: lower) = (drain upper, lower) := by
  induction upper with
  | nil => rfl
  | cons entry upper ih =>
    cases entry with
    | group => exact absurd (.head _) h
    | operator op =>
      have hupper : .group ∉ upper := fun hmem => h (.tail _ hmem)
      simp only [List.cons_append, closeGroup, ih hupper, drain_operator]

/-- With no group open, `)` puts out the whole stack. -/
theorem closeGroup_none {stack : List Waiting} (h : .group ∉ stack) :
    closeGroup stack = (drain stack, []) := by
  induction stack with
  | nil => rfl
  | cons entry stack ih =>
    cases entry with
    | group => exact absurd (.head _) h
    | operator op =>
      have hstack : .group ∉ stack := fun hmem => h (.tail _ hmem)
      simp only [closeGroup, ih hstack, drain_operator]

/-! ## No token is lost or repeated -/

/-- `)` puts out first what would be put out first at the end. -/
theorem drain_closeGroup (stack : List Waiting) :
    (closeGroup stack).1 ++ drain (closeGroup stack).2 = drain stack := by
  induction stack with
  | nil => rfl
  | cons entry stack ih =>
    cases entry with
    | operator op => exact congrArg (_ :: ·) ih
    | group => rfl

/-- A step adds its own token to what has been put out and what waits, unless it is a
parenthesis. -/
theorem step_perm (stack : List Waiting) (token : Token) :
    ((step stack token).1 ++ drain (step stack token).2).Perm
      (drain stack ++ [token].filter (!·.isParen)) := by
  cases token with
  | number text => exact List.perm_append_comm
  | operator op =>
    have h := drain_append (stack.takeWhile (Waiting.closedBy op))
      (stack.dropWhile (Waiting.closedBy op))
    rw [List.takeWhile_append_dropWhile] at h
    rw [step, closeOperators_eq, h]
    exact List.perm_middle.trans (List.perm_append_singleton _ _).symm
  | paren side =>
    rw [show [Token.paren side].filter (!·.isParen) = [] from rfl, List.append_nil]
    cases side with
    | left => exact List.Perm.refl _
    | right =>
      rw [step, drain_closeGroup]

theorem run_perm (stack : List Waiting) (tokens : List Token) :
    ((run stack tokens).1 ++ drain (run stack tokens).2).Perm
      (drain stack ++ tokens.filter (!·.isParen)) := by
  induction tokens generalizing stack with
  | nil => simp [run]
  | cons token rest ih =>
    have h := (ih (step stack token).2).append_left (step stack token).1
    rw [← List.append_assoc, ← List.append_assoc] at h
    rw [run, ← List.singleton_append, List.filter_append, ← List.append_assoc]
    exact h.trans ((step_perm stack token).append_right _)

end Postfix

/-- The postfix order has exactly the tokens that are no parentheses. -/
theorem Token.toPostfix_perm (tokens : List Token) :
    (toPostfix tokens).Perm (tokens.filter (!·.isParen)) :=
  Postfix.run_perm [] tokens

/-- The conversion keeps the number of tokens of a kind that has no parentheses. -/
theorem Token.countP_toPostfix {p : Token → Bool} (hp : ∀ side, p (.paren side) = false)
    (tokens : List Token) : (toPostfix tokens).countP p = tokens.countP p := by
  rw [(toPostfix_perm tokens).countP_eq, List.countP_filter]
  refine List.countP_congr fun token _ => ?_
  cases token with
  | paren side => simp [hp side]
  | number text => simp [isParen]
  | operator op => simp [isParen]

end Calculator
