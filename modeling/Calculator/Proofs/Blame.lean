import Mathlib
import Calculator.Proofs.InfixText
import Calculator.Proofs.Outcome

/-!
# Which literal is blamed

The conversion moves operators but keeps the operands in their order (`Token.literals_toPostfix`),
and an expression is evaluated from its leftmost literal on (`Expr.evaluate_eq_error_iff`). So a
text that has a tree is blamed on the first number in it that denotes none, and a text without a
tree is never blamed on a literal (`Evaluation.ofText_blames_first`).
-/

namespace Calculator

open Token (tokenize toPostfix)

/-! ## Operands in their order -/

/-- The text of a token that is an operand. -/
def Token.literal? : Token → Option String
  | .number text => some text
  | .operator _ | .paren _ => none

/-- The texts of the operands among the tokens. -/
def Token.literals (tokens : List Token) : List String := tokens.filterMap literal?

theorem Token.mem_literals {tokens : List Token} {text : String} :
    text ∈ literals tokens ↔ .number text ∈ tokens := by
  rw [literals, List.mem_filterMap]
  constructor
  · rintro ⟨token, hmem, htext⟩
    cases token with
    | number _ => exact Option.some.inj htext ▸ hmem
    | operator op => cases htext
    | paren side => cases htext
  · intro hmem
    exact ⟨_, hmem, rfl⟩

namespace Postfix

theorem literals_drain (stack : List Waiting) : Token.literals (drain stack) = [] := by
  induction stack with
  | nil => rfl
  | cons entry stack ih =>
    cases entry with
    | group => exact ih
    | operator op => exact ih

/-- An operand is put out at once; all else that a step puts out is operators. -/
theorem literals_step (stack : List Waiting) (token : Token) :
    Token.literals (step stack token).1 = Token.literals [token] := by
  rcases token with text | op | side | side
  · rfl
  · rw [step, closeOperators_eq]
    exact literals_drain _
  · rfl
  · rw [step, closeGroup_eq]
    exact literals_drain _

theorem literals_run (stack : List Waiting) (tokens : List Token) :
    Token.literals (run stack tokens).1 = Token.literals tokens := by
  induction tokens generalizing stack with
  | nil => rfl
  | cons token rest ih =>
    have hstep := literals_step stack token
    have hrest := ih (step stack token).2
    unfold Token.literals at *
    rw [run_cons, List.filterMap_append, hstep, hrest, ← List.filterMap_append,
      List.singleton_append]

end Postfix

/-- The postfix order has the operands in the order they are written in. -/
theorem Token.literals_toPostfix (tokens : List Token) :
    literals (toPostfix tokens) = literals tokens := by
  have hrun := Postfix.literals_run [] tokens
  have hdrain := Postfix.literals_drain (Postfix.run [] tokens).2
  unfold literals at *
  rw [Postfix.toPostfix_eq, List.filterMap_append, hrun, hdrain, List.append_nil]

theorem Expr.literals_postorder (e : Expr) : Token.literals e.postorder = e.literals := by
  induction e with
  | literal text => rfl
  | binary op left right ihl ihr =>
    unfold Token.literals at *
    rw [postorder, List.filterMap_append, List.filterMap_append, ihl, ihr]
    exact List.append_nil _

/-! ## The first bad literal -/

/-- Whether a text denotes no number. -/
def Literal.rejected (text : String) : Bool := !(value text).isOk

theorem Literal.value_eq_error_iff {text blamed : String} :
    value text = .error ⟨blamed⟩ ↔ text = blamed ∧ rejected text = true := by
  unfold rejected value
  cases Decimal.read? text with
  | none => simp [Except.isOk, Except.toBool]
  | some d => simp [Except.isOk, Except.toBool]

/-- An expression has the value that its literals give it, or is blamed on the leftmost one that
has none. -/
theorem Expr.evaluate_eq_error_iff {e : Expr} {text : String} :
    e.evaluate = .error ⟨text⟩ ↔ e.literals.find? Literal.rejected = some text := by
  induction e generalizing text with
  | literal s =>
    rw [evaluate, Literal.value_eq_error_iff, literals, List.find?_singleton]
    by_cases h : Literal.rejected s = true
    · simp [h]
    · simp [h]
  | binary op left right ihl ihr =>
    rw [evaluate, Operator.applyOutcomes, literals, List.find?_append]
    cases hl : left.evaluate with
    | error error =>
      rw [ihl.1 hl, Option.some_or]
      show Except.error error = _ ↔ _
      cases error
      simp
    | ok x =>
      -- Then no literal of the left operand is bad.
      have hnone : left.literals.find? Literal.rejected = none := by
        cases hfind : left.literals.find? Literal.rejected with
        | none => rfl
        | some s =>
          have herror := ihl.2 hfind
          rw [hl] at herror
          cases herror
      rw [hnone, Option.none_or, ← ihr]
      cases hr : right.evaluate with
      | error error => exact Iff.rfl
      | ok y =>
        constructor
        · intro h
          cases h
        · intro h
          cases h

namespace Evaluation

open Token (literals)

/-- A text that has a tree is blamed on the first bad literal in it. -/
theorem ofText_of_tree_eq_error_iff {source text : String} {t : Tree}
    (h : Tree.ofPostfix (toPostfix (tokenize source)) = .ok t) :
    ofText source = .error (.literal ⟨text⟩) ↔
      (literals (tokenize source)).find? Literal.rejected = some text := by
  have hpostfix := Tree.ofPostfix_eq_ok_iff.1 ⟨t, h, rfl⟩
  rw [← Token.literals_toPostfix, hpostfix, Expr.literals_postorder, ← Expr.evaluate_eq_error_iff,
    ← Tree.evaluate_eq, ofText_of_tree h]
  cases t.evaluate with
  | error error => simp [Except.mapError, Except.map]
  | ok v => simp [Except.mapError, Except.map]

/-- A bad literal is one of the numbers in the text. -/
theorem literal_error_mem {source : String} {error : LiteralError}
    (h : ofText source = .error (.literal error)) : .number error.literal ∈ tokenize source := by
  obtain ⟨t, ht⟩ := @exists_tree source (by simp [h])
  have hfind := (ofText_of_tree_eq_error_iff ht).1 h
  exact Token.mem_literals.1 (List.mem_of_find?_eq_some hfind)

/-- A literal is blamed exactly if the text has a tree and some number in the text denotes none, and
it is the first such number then. Where there is no tree, the reason for that is reported, whatever
the literals. -/
theorem ofText_blames_first (source : String) :
    ((∃ error, ofText source = .error (.literal error)) ↔
      (∃ t, Tree.ofPostfix (toPostfix (tokenize source)) = .ok t) ∧
        ∃ text, .number text ∈ tokenize source ∧ Literal.rejected text = true) ∧
    (∀ text, ofText source = .error (.literal ⟨text⟩) ↔
      (∃ t, Tree.ofPostfix (toPostfix (tokenize source)) = .ok t) ∧
        (literals (tokenize source)).find? Literal.rejected = some text) ∧
    ∀ error, ofText source = .error (.structural error) ↔
      Tree.ofPostfix (toPostfix (tokenize source)) = .error error := by
  have hfirst : ∀ text, ofText source = .error (.literal ⟨text⟩) ↔
      (∃ t, Tree.ofPostfix (toPostfix (tokenize source)) = .ok t) ∧
        (literals (tokenize source)).find? Literal.rejected = some text := by
    intro text
    constructor
    · intro h
      obtain ⟨t, ht⟩ := @exists_tree source (by simp [h])
      exact ⟨⟨t, ht⟩, (ofText_of_tree_eq_error_iff ht).1 h⟩
    · rintro ⟨⟨t, ht⟩, hfind⟩
      exact (ofText_of_tree_eq_error_iff ht).2 hfind
  refine ⟨?_, hfirst, fun error => ofText_eq_structural_iff⟩
  constructor
  · rintro ⟨⟨text⟩, h⟩
    obtain ⟨htree, hfind⟩ := (hfirst text).1 h
    exact ⟨htree, text, literal_error_mem h, List.find?_some hfind⟩
  · rintro ⟨htree, text, hmem, hrejected⟩
    have hsome : ((literals (tokenize source)).find? Literal.rejected).isSome = true :=
      List.find?_isSome.2 ⟨text, Token.mem_literals.2 hmem, hrejected⟩
    obtain ⟨first, hfind⟩ := Option.isSome_iff_exists.1 hsome
    exact ⟨⟨first⟩, (hfirst first).2 ⟨htree, hfind⟩⟩

example : evaluate "2*(.+-..)-1." = .error (.literal ⟨"."⟩) := by decide +kernel

end Evaluation

end Calculator
