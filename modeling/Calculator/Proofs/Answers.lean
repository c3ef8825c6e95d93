import Mathlib
import Calculator.Binary64.Text
import Calculator.Evaluation
import Calculator.Proofs.Blame
import Calculator.Proofs.Cutting
import Calculator.Proofs.DecimalText

/-!
# Answers of one line

Values are printed and errors are reported in texts of one line, whatever text was evaluated
(`Binary64.text_oneLine`, `ExpressionError.message_oneLine`). The only part of them that comes from
that text is a bad literal; it is one of the numbers in the text (`Evaluation.literal_error_mem`),
and these have no other characters than digits, points and a minus sign.
-/

namespace Calculator

open Text (OneLine oneLine_append)

/-! ## Numbers -/

theorem ne_lineEnd_of_isDigit {c : Char} (h : c.isDigit = true) : c ≠ '\n' ∧ c ≠ '\r' := by
  constructor
  · rintro rfl
    exact absurd h (by decide)
  · rintro rfl
    exact absurd h (by decide)

theorem oneLine_toString (n : Nat) : OneLine (toString n) := by
  intro c hc
  rw [Nat.toString_eq_repr, Nat.toList_repr] at hc
  exact ne_lineEnd_of_isDigit (Decimal.isDigit_toDigits hc)

/-- A decimal number is printed with digits, a minus sign and a point. -/
theorem Decimal.mem_chars {d : Decimal} {c : Char} (h : c ∈ d.chars) :
    c.isDigit = true ∨ c = '-' ∨ c = '.' := by
  rw [chars_eq, unsignedChars, List.mem_append, List.mem_append] at h
  rcases h with hsign | hwhole | hfraction
  · split at hsign
    · exact .inr (.inl (List.mem_singleton.1 hsign))
    · cases hsign
  · exact .inl (isDigit_toDigits hwhole)
  · split at hfraction
    · cases hfraction
    · rcases List.mem_cons.1 hfraction with rfl | hfraction
      · exact .inr (.inr rfl)
      · exact .inl (isDigit_fraction hfraction)

theorem Decimal.text_oneLine (d : Decimal) : OneLine d.text := by
  intro c hc
  rw [text, String.toList_ofList] at hc
  rcases mem_chars hc with hdigit | rfl | rfl
  · exact ne_lineEnd_of_isDigit hdigit
  · decide
  · decide

theorem Binary64.text_oneLine (v : Binary64) : OneLine v.text := by
  cases v with
  | nan => decide
  | signed negative m =>
    rw [text]
    split
    · split <;> decide
    · split
      · decide
      · exact Decimal.text_oneLine _

/-! ## The literal of an error -/

namespace Token

theorem IsNumeral.oneLine {text : String} (h : IsNumeral text.toList) : OneLine text := by
  intro c hc
  rcases h.mem hc with hliteral | rfl
  · rw [isLiteralChar, Bool.or_eq_true, beq_iff_eq] at hliteral
    rcases hliteral with hdigit | rfl
    · exact ne_lineEnd_of_isDigit hdigit
    · decide
  · decide

end Token

/-! ## Messages -/

theorem StructuralError.message_oneLine (error : StructuralError) : OneLine error.message := by
  cases error with
  | missingOperand op available =>
    have hop : OneLine op.text := by cases op <;> decide +kernel
    unfold message
    simp only [oneLine_append]
    exact ⟨⟨⟨⟨by decide +kernel, hop⟩, by decide +kernel⟩, oneLine_toString available⟩,
      by decide +kernel⟩
  | empty => decide +kernel
  | multipleRoots count =>
    unfold message
    simp only [oneLine_append]
    exact ⟨⟨by decide +kernel, oneLine_toString count⟩, by decide +kernel⟩
  | unexpectedParen side => cases side <;> decide +kernel

theorem LiteralError.message_oneLine {error : LiteralError} (h : OneLine error.literal) :
    OneLine error.message := by
  unfold message
  simp only [oneLine_append]
  exact ⟨⟨by decide +kernel, h⟩, by decide +kernel⟩

theorem ExpressionError.message_oneLine {source : String} {error : ExpressionError}
    (h : Evaluation.ofText source = .error error) : OneLine error.message := by
  cases error with
  | structural error => exact error.message_oneLine
  | literal error =>
    have hliteral := (Token.lexical_scan _ _).isNumeral (Evaluation.literal_error_mem h)
    exact LiteralError.message_oneLine hliteral.oneLine

end Calculator
