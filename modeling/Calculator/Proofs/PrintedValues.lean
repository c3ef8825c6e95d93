import Mathlib
import Calculator.Binary64.Text
import Calculator.Proofs.DecimalText
import Calculator.Proofs.GroupedText
import Calculator.Proofs.LiteralText
import Calculator.Proofs.Rounding

/-!
# Printed values

The decimal that a finite number is printed as rounds to the number (`Binary64.toBinary64_decimal`):
the digits were found by this test, and zeros at the end of the fraction do not count. Its text is a
literal, so it is one token and has the number as its value; only the sign of zero is lost
(`evaluate_text`). The texts of the other numbers have no tree. So values that are read back are
printed as they were (`evaluate_printed`).
-/

namespace Calculator

open Token (tokenize)

-- Powers are those of natural numbers, as in the definitions.
attribute [local instance (high)] instPowNat

/-! ## The decimal of a number -/

/-- The digits that are found round to the magnitude, also where none is given up. -/
theorem Magnitude.nearest_shortestFrom (m : Magnitude) (dropped : Nat) :
    nearest ((m.shortestFrom dropped).1 * 10 ^ (m.shortestFrom dropped).2) (5 ^ exactPlaces) =
      m := by
  induction dropped with
  | zero =>
    have hquotient : m.exactCoefficient * 10 ^ 0 * 1 = m.quanta * 5 ^ exactPlaces := by
      rw [Nat.pow_zero, Nat.mul_one, Nat.mul_one, exactCoefficient]
    have hpos : 0 < 5 ^ exactPlaces := Nat.pow_pos (Nat.succ_pos 4)
    rw [shortestFrom, nearest_congr hpos Nat.one_pos hquotient, nearest_quanta]
  | succ dropped ih =>
    rw [shortestFrom]
    cases hfind : (m.neighbours (dropped + 1)).find? (m.readsBack (dropped + 1)) with
    | none => exact ih
    | some digits =>
      have hreads : m.readsBack (dropped + 1) digits = true := List.find?_some hfind
      rw [readsBack, decide_eq_true_iff] at hreads
      rw [Option.map_some, Option.getD_some]
      exact hreads

namespace Decimal

theorem trimZeros_negative (negative : Bool) (coefficient places : Nat) :
    (trimZeros negative coefficient places).negative = negative := by
  induction places generalizing coefficient with
  | zero => rfl
  | succ places ih =>
    rw [trimZeros]
    split
    · exact ih _
    · rfl

theorem trimZeros_coefficient (negative : Bool) (coefficient places : Nat) :
    (trimZeros negative coefficient places).coefficient * 10 ^ places =
      coefficient * 10 ^ (trimZeros negative coefficient places).places := by
  induction places generalizing coefficient with
  | zero => rfl
  | succ places ih =>
    rw [trimZeros]
    split
    · rename_i hzero
      have htenth : coefficient = coefficient / 10 * 10 := by omega
      rw [Nat.pow_succ, ← Nat.mul_assoc, ih, Nat.mul_right_comm, ← htenth]
    · rfl

/-- The number `digits` with `dropped` zeros after it, of whose places `total` come after the point,
keeps its value, whichever of the two is larger. -/
theorem trimZeros_shifted (negative : Bool) (digits dropped total : Nat) {d : Decimal}
    (hd : trimZeros negative (digits * 10 ^ (dropped - total)) (total - dropped) = d) :
    d.coefficient * 10 ^ total = digits * 10 ^ dropped * 10 ^ d.places := by
  have hvalue := trimZeros_coefficient negative (digits * 10 ^ (dropped - total)) (total - dropped)
  rw [hd] at hvalue
  obtain ⟨common, htotal, hdropped⟩ :
      ∃ common, total = total - dropped + common ∧ dropped = dropped - total + common :=
    ⟨min total dropped, by omega, by omega⟩
  calc d.coefficient * 10 ^ total
      = d.coefficient * 10 ^ (total - dropped) * 10 ^ common := by
        rw [Nat.mul_assoc, ← Nat.pow_add, ← htotal]
    _ = digits * (10 ^ (dropped - total) * 10 ^ common) * 10 ^ d.places := by
        rw [hvalue, Nat.mul_right_comm, Nat.mul_assoc digits]
    _ = digits * 10 ^ dropped * 10 ^ d.places := by
        rw [← Nat.pow_add, ← hdropped]

end Decimal

namespace Binary64

theorem quantaPerUnit_mul :
    quantaPerUnit * 5 ^ Magnitude.exactPlaces = 10 ^ Magnitude.exactPlaces := by
  have hquanta : quantaPerUnit = 2 ^ Magnitude.exactPlaces := by
    rw [quantaPerUnit, Magnitude.exactPlaces]
  rw [hquanta, ← Nat.mul_pow]

/-- The decimal that a finite number is printed as rounds to the number. -/
theorem toBinary64_decimal (negative : Bool) (m : Magnitude) :
    (decimal negative m).toBinary64 = .signed negative m := by
  have hnearest := m.nearest_shortestFrom (Magnitude.digitBound m.exactCoefficient)
  rw [decimal]
  generalize m.shortestFrom (Magnitude.digitBound m.exactCoefficient) = found at hnearest ⊢
  generalize hd : Decimal.trimZeros negative (found.1 * 10 ^ (found.2 - Magnitude.exactPlaces))
    (Magnitude.exactPlaces - found.2) = d
  have hsign : d.negative = negative := by rw [← hd, Decimal.trimZeros_negative]
  have hvalue := Decimal.trimZeros_shifted negative found.1 found.2 Magnitude.exactPlaces hd
  have hquotient : d.coefficient * quantaPerUnit * 5 ^ Magnitude.exactPlaces =
      found.1 * 10 ^ found.2 * 10 ^ d.places := by
    rw [Nat.mul_assoc, quantaPerUnit_mul, hvalue]
  have hunit : 0 < 10 ^ d.places := Nat.pow_pos (Nat.succ_pos 9)
  have hpos : 0 < 5 ^ Magnitude.exactPlaces := Nat.pow_pos (Nat.succ_pos 4)
  rw [Decimal.toBinary64, hsign, Magnitude.nearest_congr hunit hpos hquotient, hnearest]

/-! ## Texts that are read back -/

/-- Whether the number is neither infinite nor "not a number". -/
def isFinite : Binary64 → Bool
  | .nan => false
  | .signed _ m => !m.isInfinite

/-- The number with a positive zero in place of a negative one. -/
def dropZeroSign : Binary64 → Binary64
  | .nan => .nan
  | .signed negative m => .signed (negative && !m.isZero) m

theorem text_dropZeroSign (x : Binary64) : x.dropZeroSign.text = x.text := by
  cases x with
  | nan => rfl
  | signed negative m =>
    by_cases hzero : m.isZero = true
    · have hfinite : m.isInfinite = false := by
        rw [Magnitude.isZero_iff.1 hzero, Magnitude.isInfinite_zero]
      simp only [dropZeroSign, text, hzero, hfinite, if_true, if_false, Bool.false_eq_true]
    · rw [dropZeroSign, Bool.eq_false_iff.2 hzero, Bool.not_false, Bool.and_true]

theorem value_text {x : Binary64} (h : x.isFinite = true) :
    Literal.value x.text = .ok x.dropZeroSign := by
  cases x with
  | nan => cases h
  | signed negative m =>
    have hfinite : m.isInfinite = false := by simpa [isFinite] using h
    rw [text, hfinite, if_neg Bool.false_ne_true, dropZeroSign]
    by_cases hzero : m.isZero = true
    · obtain rfl : m = .zero := Magnitude.isZero_iff.1 hzero
      rw [if_pos hzero, hzero, Bool.not_true, Bool.and_false]
      decide +kernel
    · rw [if_neg hzero, Literal.value, Decimal.read?_text, Bool.eq_false_iff.2 hzero,
        Bool.not_false, Bool.and_true]
      exact congrArg Except.ok (toBinary64_decimal negative m)

end Binary64

/-! ## Literals as texts -/

/-- A literal is one token. -/
theorem Token.tokenize_literal {text : String} (h : Literal.WellFormed text) :
    tokenize text = [.number text] := by
  have hscan := scan_number h.isNumeral (fun _ => rfl) (show startsLiteral [] = false from rfl)
  rw [List.append_nil, scan] at hscan
  exact hscan

/-- A literal has its own value. -/
theorem evaluate_literal {text : String} {v : Binary64} (h : Literal.value text = .ok v) :
    evaluate text = .ok v := by
  have htokens := Token.tokenize_literal (Literal.value_eq_ok_iff.1 ⟨v, h⟩)
  have hpostfix : Token.toPostfix (tokenize text) = (Expr.literal text).postorder := by
    rw [htokens]
    rfl
  obtain ⟨t, ht, hexpr⟩ := Tree.ofPostfix_eq_ok_iff.2 hpostfix
  rw [evaluate_of_tree ht, hexpr, Expr.evaluate, h]
  rfl

theorem evaluate_text {x : Binary64} (h : x.isFinite = true) :
    evaluate x.text = .ok x.dropZeroSign :=
  evaluate_literal (Binary64.value_text h)

theorem evaluate_text_of_not_finite {x : Binary64} (h : x.isFinite = false) :
    evaluate x.text = .error (.structural
      (if x = .signed true .infinity then .missingOperand .sub 0 else .empty)) := by
  have hall : ∀ x ∈ [Binary64.nan, .signed true .infinity, .signed false .infinity],
      evaluate x.text = .error (.structural
        (if x = .signed true .infinity then .missingOperand .sub 0 else .empty)) := by
    decide +kernel
  refine hall x ?_
  cases x with
  | nan => simp
  | signed negative m =>
    have hinfinite : m.isInfinite = true := by simpa [Binary64.isFinite] using h
    obtain rfl : m = .infinity := Magnitude.isInfinite_iff.1 hinfinite
    cases negative <;> simp

/-- The text of a finite number is one token and is evaluated to the number, a negative zero to the
positive one; the text of any other number has no tree. So a finite value that is printed and
evaluated again is printed as before, and two are printed alike exactly if they differ in nothing
but the sign of zero. -/
theorem evaluate_printed :
    (∀ x : Binary64, x.isFinite = true →
      tokenize x.text = [.number x.text] ∧ evaluate x.text = .ok x.dropZeroSign) ∧
    (∀ x : Binary64, x.isFinite = false →
      evaluate x.text = .error (.structural
        (if x = .signed true .infinity then .missingOperand .sub 0 else .empty))) ∧
    (∀ x : Binary64, x.isFinite = true → (evaluate x.text).map Binary64.text = .ok x.text) ∧
    ∀ x y : Binary64, x.isFinite = true → y.isFinite = true →
      (x.text = y.text ↔ x.dropZeroSign = y.dropZeroSign) := by
  refine ⟨fun x hx => ⟨?_, evaluate_text hx⟩, fun x hx => evaluate_text_of_not_finite hx,
    fun x hx => ?_, fun x y hx hy => ⟨fun h => ?_, fun h => ?_⟩⟩
  · exact Token.tokenize_literal (Literal.value_eq_ok_iff.1 ⟨_, Binary64.value_text hx⟩)
  · rw [evaluate_text hx, Except.map, Binary64.text_dropZeroSign]
  · have heval := evaluate_text hx
    rw [h, evaluate_text hy] at heval
    exact (Except.ok.inj heval).symm
  · rw [← x.text_dropZeroSign, h, y.text_dropZeroSign]

/-- The negative number next to zero, the negative infinity and the two zeros. -/
theorem evaluate_printed_each :
    let tiny : Binary64 := .signed true ⟨1, by decide⟩
    let infinity : Binary64 := .signed true .infinity
    let zero : Binary64 := .signed false .zero
    let negativeZero : Binary64 := .signed true .zero
    (tiny.isFinite = true ∧ tokenize tiny.text = [.number tiny.text] ∧
      evaluate tiny.text = .ok tiny.dropZeroSign) ∧
    (infinity.isFinite = false ∧ evaluate infinity.text = .error (.structural
      (if infinity = .signed true .infinity then .missingOperand .sub 0 else .empty))) ∧
    (negativeZero.isFinite = true ∧
      (evaluate negativeZero.text).map Binary64.text = .ok negativeZero.text) ∧
    zero.isFinite = true ∧
      (zero.text = negativeZero.text ↔ zero.dropZeroSign = negativeZero.dropZeroSign) := by
  intro tiny infinity zero negativeZero
  have htiny : tiny.isFinite = true := by decide
  have hinfinity : infinity.isFinite = false := by decide
  have hzero : zero.isFinite = true := by decide
  have hnegative : negativeZero.isFinite = true := by decide
  obtain ⟨hfinite, hother, hagain, halike⟩ := evaluate_printed
  exact ⟨⟨htiny, hfinite tiny htiny⟩, ⟨hinfinity, hother infinity hinfinity⟩,
    ⟨hnegative, hagain negativeZero hnegative⟩, hzero, halike zero negativeZero hzero hnegative⟩

end Calculator
