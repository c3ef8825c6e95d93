import Mathlib
import Calculator.Evaluation
import Calculator.Proofs.Counting
import Calculator.Proofs.Scanning

/-!
# The outcome of a text

A text has an operand or an operator as soon as it has a digit, a point or an operator's symbol
(`Token.filter_scan_eq_nil`), and the outcome of building tells how many it has of each
(`Tree.ofPostfix_accounts`). Which error a text is reported with is therefore tied to the text itself
(`Evaluation.ofText_accounts`).
-/

namespace Calculator

open Token (tokenize toPostfix operands operators)

/-! ## The tokens of a text -/

namespace Token

/-- Whether a character is part of an operand or an operator: it is an ASCII digit or one of
`. + - * /`. -/
def isSignificant (c : Char) : Bool := c.isDigit || c ∈ ['.', '+', '-', '*', '/']

theorem isSignificant_of_isLiteralChar {c : Char} (h : isLiteralChar c = true) :
    isSignificant c = true := by
  rw [isLiteralChar, Bool.or_eq_true, beq_iff_eq] at h
  rcases h with h | rfl
  · rw [isSignificant, h, Bool.true_or]
  · rfl

theorem isSignificant_of_isFiller {c : Char} (h : isFiller c = true) : isSignificant c = false := by
  simp only [isFiller, Bool.and_eq_true, bne_iff_ne, Bool.not_eq_true'] at h
  simp [isSignificant, h]

/-- A text has operands or operators exactly if it has characters of them. -/
theorem filter_scan_eq_nil {wanted : Bool} {cs : List Char} :
    (scan wanted cs).filter (!·.isParen) = [] ↔ ∀ c ∈ cs, isSignificant c = false := by
  induction wanted, cs using scan_induction with
  | nil wanted => simp [scan]
  | number wanted text rest hnumeral hsign hrest ih =>
    obtain ⟨c, hc⟩ := List.exists_mem_of_ne_nil _ hnumeral.ne_nil
    have hsignificant : isSignificant c = true := by
      rcases hnumeral.mem hc with hliteral | rfl
      · exact isSignificant_of_isLiteralChar hliteral
      · rfl
    rw [scan_number hnumeral hsign hrest, List.filter_cons_of_pos rfl]
    constructor
    · exact fun h => absurd h (List.cons_ne_nil _ _)
    · intro h
      have hnot := h c (List.mem_append_left _ hc)
      rw [hsignificant] at hnot
      cases hnot
  | operator wanted op rest hsign ih =>
    have hsignificant : isSignificant op.symbol = true := by cases op <;> rfl
    rw [scan_operator hsign, List.filter_cons_of_pos rfl]
    simp [hsignificant]
  | paren wanted side rest ih =>
    have hnot : isSignificant side.symbol = false := by cases side <;> rfl
    rw [scan_paren, List.filter_cons_of_neg (by simp [isParen]), List.forall_mem_cons,
      and_iff_right hnot, ih]
  | filler wanted c rest hc ih =>
    rw [scan_filler hc, List.forall_mem_cons, and_iff_right (isSignificant_of_isFiller hc), ih]

end Token

/-! ## The outcome of a text -/

namespace Evaluation

theorem ofText_eq_structural_iff {source : String} {error : StructuralError} :
    ofText source = .error (.structural error) ↔
      Tree.ofPostfix (toPostfix (tokenize source)) = .error error := by
  cases htree : Tree.ofPostfix (toPostfix (tokenize source)) with
  | error error' =>
    rw [ofText_of_error htree]
    simp
  | ok t =>
    rw [ofText_of_tree htree]
    cases t.evaluate <;> simp [Except.mapError, Except.map]

theorem tree_of_ok {source : String} {e : Evaluation} (h : ofText source = .ok e) :
    Tree.ofPostfix (toPostfix (tokenize source)) = .ok e.tree := by
  obtain ⟨t, ht⟩ := @exists_tree source (by simp [h])
  rw [ofText_of_tree ht] at h
  obtain ⟨v, -, rfl⟩ := map_eq_ok_iff.1 h
  exact ht

/-- A text that has a tree has one operand more than it has operators. -/
theorem counts_of_tree {source : String} {t : Tree}
    (h : Tree.ofPostfix (toPostfix (tokenize source)) = .ok t) :
    operands (tokenize source) = operators (tokenize source) + 1 ∧
      t.nodeCount = operands (tokenize source) + operators (tokenize source) := by
  have houtcome := Tree.ofPostfix_accounts (toPostfix (tokenize source))
  rw [h] at houtcome
  obtain ⟨hcount, hnodes⟩ := houtcome
  rw [Token.operands_toPostfix, Token.operators_toPostfix] at hcount
  exact ⟨hcount, hnodes.trans (Token.length_toPostfix _)⟩

/-- There is nothing to build exactly for a text without operands and operators. -/
theorem ofText_eq_empty_iff {source : String} :
    ofText source = .error (.structural .empty) ↔
      ∀ c ∈ source.toList, Token.isSignificant c = false := by
  have hnil : toPostfix (tokenize source) = [] ↔
      ∀ c ∈ source.toList, Token.isSignificant c = false := by
    rw [← Token.filter_scan_eq_nil, ← tokenize, ← List.length_eq_zero_iff,
      Token.length_toPostfix, Token.operands_add_operators, List.length_eq_zero_iff]
  rw [ofText_eq_structural_iff, ← hnil]
  constructor
  · intro h
    have houtcome := Tree.ofPostfix_accounts (toPostfix (tokenize source))
    rw [h] at houtcome
    exact houtcome
  · intro h
    rw [h]
    rfl

/-- With no more operands than operators, some operator lacks an operand. -/
theorem ofText_of_operands_le {source : String}
    (hpos : 0 < operands (tokenize source) + operators (tokenize source))
    (hle : operands (tokenize source) ≤ operators (tokenize source)) :
    ∃ op available, ofText source = .error (.structural (.missingOperand op available)) := by
  have houtcome := Tree.ofPostfix_accounts (toPostfix (tokenize source))
  have hlength := Token.length_toPostfix (tokenize source)
  cases htree : Tree.ofPostfix (toPostfix (tokenize source)) with
  | ok t =>
    have hcount := (counts_of_tree htree).1
    omega
  | error error =>
    rw [htree] at houtcome
    cases error with
    | missingOperand op available => exact ⟨op, available, ofText_of_error htree⟩
    | empty =>
      rw [show toPostfix (tokenize source) = [] from houtcome] at hlength
      rw [List.length_nil] at hlength
      omega
    | multipleRoots count =>
      obtain ⟨hcount, hroots⟩ := houtcome
      rw [Token.operands_toPostfix, Token.operators_toPostfix] at hcount
      omega
    | unexpectedParen side => exact absurd (Token.mem_of_mem_toPostfix houtcome).2 nofun

/-- What the numbers of operands and operators in a text, and its characters, say about how it is
evaluated. -/
theorem ofText_accounts (source : String) :
    (∀ side, ofText source ≠ .error (.structural (.unexpectedParen side))) ∧
    (ofText source = .error (.structural .empty) ↔
      ∀ c ∈ source.toList, Token.isSignificant c = false) ∧
    (∀ count, ofText source = .error (.structural (.multipleRoots count)) →
      operands (tokenize source) = operators (tokenize source) + count ∧ 2 ≤ count) ∧
    (∀ op available, ofText source = .error (.structural (.missingOperand op available)) →
      .operator op ∈ tokenize source ∧ (available = 0 ∨ available = 1)) ∧
    (0 < operands (tokenize source) + operators (tokenize source) →
      operands (tokenize source) ≤ operators (tokenize source) →
      ∃ op available, ofText source = .error (.structural (.missingOperand op available))) ∧
    (∀ error, ofText source = .error (.literal error) →
      operands (tokenize source) = operators (tokenize source) + 1) ∧
    (∀ e, ofText source = .ok e →
      operands (tokenize source) = operators (tokenize source) + 1 ∧
        e.tree.nodeCount = operands (tokenize source) + operators (tokenize source)) := by
  have houtcome := Tree.ofPostfix_accounts (toPostfix (tokenize source))
  refine ⟨fun side h => ?_, ofText_eq_empty_iff, fun count h => ?_, fun op available h => ?_,
    ofText_of_operands_le, fun error h => ?_, fun e h => counts_of_tree (tree_of_ok h)⟩
  · rw [ofText_eq_structural_iff.1 h] at houtcome
    exact absurd (Token.mem_of_mem_toPostfix houtcome).2 nofun
  · rw [ofText_eq_structural_iff.1 h] at houtcome
    obtain ⟨hcount, hroots⟩ := houtcome
    rw [Token.operands_toPostfix, Token.operators_toPostfix] at hcount
    exact ⟨hcount, hroots⟩
  · rw [ofText_eq_structural_iff.1 h] at houtcome
    obtain ⟨hmem, hfew⟩ := houtcome
    exact ⟨(Token.mem_of_mem_toPostfix hmem).1, Nat.le_one_iff_eq_zero_or_eq_one.1 hfew⟩
  · obtain ⟨t, ht⟩ := @exists_tree source (by simp [h])
    exact (counts_of_tree ht).1

/-- Three values without an operator, an operator after another, a bad literal, and an operator
after both of its operands. -/
theorem ofText_accounts_each :
    (ofText "1 2 (3)" = .error (.structural (.multipleRoots 3)) ∧
      operands (tokenize "1 2 (3)") = operators (tokenize "1 2 (3)") + 3 ∧ 2 ≤ 3) ∧
    (ofText "2*(+)" = .error (.structural (.missingOperand .add 1)) ∧
      .operator .add ∈ tokenize "2*(+)" ∧ (1 = 0 ∨ 1 = 1)) ∧
    (0 < operands (tokenize "2*(+)") + operators (tokenize "2*(+)") ∧
      operands (tokenize "2*(+)") ≤ operators (tokenize "2*(+)") ∧
      ∃ op available, ofText "2*(+)" = .error (.structural (.missingOperand op available))) ∧
    (∃ error, ofText "1+." = .error (.literal error) ∧
      operands (tokenize "1+.") = operators (tokenize "1+.") + 1) ∧
    ∃ e, ofText "(1 2)-" = .ok e ∧
      operands (tokenize "(1 2)-") = operators (tokenize "(1 2)-") + 1 ∧
        e.tree.nodeCount = operands (tokenize "(1 2)-") + operators (tokenize "(1 2)-") := by
  obtain ⟨-, -, hroots, -, -, -, -⟩ := ofText_accounts "1 2 (3)"
  obtain ⟨-, -, -, hmissing, hle, -, -⟩ := ofText_accounts "2*(+)"
  obtain ⟨-, -, -, -, -, hliteral, -⟩ := ofText_accounts "1+."
  obtain ⟨-, -, -, -, -, -, hok⟩ := ofText_accounts "(1 2)-"
  have hthree : ofText "1 2 (3)" = .error (.structural (.multipleRoots 3)) := by cbv
  have hadd : ofText "2*(+)" = .error (.structural (.missingOperand .add 1)) := by cbv
  have hpos : 0 < operands (tokenize "2*(+)") + operators (tokenize "2*(+)") := by decide +kernel
  have hfew : operands (tokenize "2*(+)") ≤ operators (tokenize "2*(+)") := by decide +kernel
  refine ⟨⟨hthree, hroots 3 hthree⟩, ⟨hadd, hmissing .add 1 hadd⟩, ⟨hpos, hfew, hle hpos hfew⟩,
    ?_, ?_⟩
  · have hvalue : evaluate "1+." = .error (.literal ⟨"."⟩) := by decide +kernel
    rw [evaluate] at hvalue
    cases h : ofText "1+." with
    | ok e =>
      rw [h] at hvalue
      cases hvalue
    | error error =>
      rw [h] at hvalue
      cases hvalue
      exact ⟨_, rfl, hliteral _ h⟩
  · have hisOk : (ofText "(1 2)-").isOk = true := by decide +kernel
    cases h : ofText "(1 2)-" with
    | ok e => exact ⟨e, rfl, hok e h⟩
    | error error =>
      rw [h] at hisOk
      cases hisOk

end Evaluation

end Calculator
