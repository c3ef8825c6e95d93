import Mathlib
import Calculator.Decimal

/-!
# Printed decimals

A printed decimal is read as the same decimal (`Decimal.read?_text`): its whole part and its
fraction are the digits that reading finds before and after the point, and together they have the
coefficient as their value.
-/

namespace Calculator.Decimal

-- Powers are those of natural numbers, as in the definitions.
attribute [local instance (high)] instPowNat

/-- The digits after the point: the coefficient's last ones, with zeros before them if it has
fewer. -/
def fraction (d : Decimal) : List Char :=
  (Nat.toDigits 10 (d.coefficient % 10 ^ d.places)).leftpad d.places '0'

theorem isDigit_toDigits {n : Nat} {c : Char} (h : c ∈ Nat.toDigits 10 n) : c.isDigit = true :=
  Nat.isDigit_of_mem_toDigits (by decide) (by decide) h

theorem isDigit_fraction {d : Decimal} {c : Char} (h : c ∈ d.fraction) : c.isDigit = true := by
  rw [fraction, List.leftpad, List.mem_append, List.mem_replicate] at h
  rcases h with ⟨-, rfl⟩ | h
  · decide
  · exact isDigit_toDigits h

theorem length_fraction {d : Decimal} (h : d.places ≠ 0) : d.fraction.length = d.places := by
  have hpos : 0 < d.places := Nat.pos_of_ne_zero h
  have hlt : d.coefficient % 10 ^ d.places < 10 ^ d.places := Nat.mod_lt _ (Nat.pow_pos (by decide))
  have hle := (Nat.length_toDigits_le_iff (by decide) hpos).2 hlt
  rw [fraction, List.length_leftpad, Nat.max_eq_left hle]

theorem ofDigitChars_fraction (d : Decimal) (init : Nat) (h : d.places ≠ 0) :
    Nat.ofDigitChars 10 d.fraction init =
      10 ^ d.places * init + d.coefficient % 10 ^ d.places := by
  rw [Nat.ofDigitChars_eq_ofDigitChars_zero, length_fraction h, fraction, List.leftpad,
    Nat.ofDigitChars_append, Nat.ofDigitChars_replicate_zero, Nat.mul_zero,
    Nat.ofDigitChars_ten_toDigits]

/-- The text without the sign. -/
def unsignedChars (d : Decimal) : List Char :=
  Nat.toDigits 10 (d.coefficient / 10 ^ d.places) ++
    if d.places = 0 then [] else '.' :: d.fraction

theorem chars_eq (d : Decimal) :
    d.chars = (if d.negative then ['-'] else []) ++ d.unsignedChars :=
  List.append_assoc ..

/-! ## Reading -/

section Reading

variable {negative : Bool} {whole : List Char} (hwhole : ∀ c ∈ whole, c.isDigit = true)
include hwhole

theorem readUnsigned?_digits (hne : whole ≠ []) :
    readUnsigned? negative whole = some ⟨negative, Nat.ofDigitChars 10 whole 0, 0⟩ := by
  have htake : whole.takeWhile Char.isDigit = whole := List.takeWhile_eq_self_iff.2 hwhole
  have hdrop : whole.dropWhile Char.isDigit = [] := List.dropWhile_eq_nil_iff.2 hwhole
  simp only [readUnsigned?, htake, hdrop, List.isEmpty_eq_false_iff.2 hne, Bool.false_eq_true,
    if_false]

theorem readUnsigned?_point {fraction : List Char} (hne : whole ++ fraction ≠ [])
    (hfraction : ∀ c ∈ fraction, c.isDigit = true) :
    readUnsigned? negative (whole ++ '.' :: fraction) =
      some ⟨negative, Nat.ofDigitChars 10 (whole ++ fraction) 0, fraction.length⟩ := by
  have htake : (whole ++ '.' :: fraction).takeWhile Char.isDigit = whole := by
    rw [List.takeWhile_append_of_pos hwhole, List.takeWhile_cons_of_neg (by decide),
      List.append_nil]
  have hdrop : (whole ++ '.' :: fraction).dropWhile Char.isDigit = '.' :: fraction := by
    rw [List.dropWhile_append_of_pos hwhole, List.dropWhile_cons_of_neg (by decide)]
  have hall : fraction.all Char.isDigit = true := List.all_eq_true.2 hfraction
  have hdigits : (whole ++ fraction).isEmpty = false := List.isEmpty_eq_false_iff.2 hne
  simp only [readUnsigned?, htake, hdrop, hall, hdigits, beq_self_eq_true, Bool.not_false,
    Bool.and_self, if_true]

end Reading

theorem readUnsigned?_unsignedChars (d : Decimal) :
    readUnsigned? d.negative d.unsignedChars = some d := by
  have hwhole : ∀ c ∈ Nat.toDigits 10 (d.coefficient / 10 ^ d.places), c.isDigit = true :=
    fun c hc => isDigit_toDigits hc
  unfold unsignedChars
  by_cases hplaces : d.places = 0
  · rw [if_pos hplaces, List.append_nil, readUnsigned?_digits hwhole Nat.toDigits_ne_nil,
      Nat.ofDigitChars_ten_toDigits, hplaces, Nat.pow_zero, Nat.div_one, ← hplaces]
  · have hcoefficient := Nat.div_add_mod d.coefficient (10 ^ d.places)
    have hne : Nat.toDigits 10 (d.coefficient / 10 ^ d.places) ++ d.fraction ≠ [] :=
      List.append_ne_nil_of_left_ne_nil Nat.toDigits_ne_nil _
    rw [if_neg hplaces, readUnsigned?_point hwhole hne fun c hc => isDigit_fraction hc,
      Nat.ofDigitChars_append, Nat.ofDigitChars_ten_toDigits, ofDigitChars_fraction d _ hplaces,
      hcoefficient, length_fraction hplaces]

/-- Without its sign a printed decimal starts with a digit. -/
theorem unsignedChars_ne_minus (d : Decimal) (cs : List Char) : d.unsignedChars ≠ '-' :: cs := by
  intro h
  have hne : Nat.toDigits 10 (d.coefficient / 10 ^ d.places) ≠ [] := Nat.toDigits_ne_nil
  obtain ⟨c, rest, hdigits⟩ := List.exists_cons_of_ne_nil hne
  have hmem : c ∈ Nat.toDigits 10 (d.coefficient / 10 ^ d.places) := by
    rw [hdigits]
    exact .head _
  have hdigit := isDigit_toDigits hmem
  rw [unsignedChars, hdigits, List.cons_append, List.cons.injEq] at h
  rw [h.1] at hdigit
  exact absurd hdigit (by decide)

/-- A printed decimal is read as it was. -/
theorem read?_text (d : Decimal) : read? d.text = some d := by
  have hread := readUnsigned?_unsignedChars d
  rw [read?, text, String.toList_ofList, chars_eq]
  cases hsign : d.negative with
  | true =>
    rw [hsign] at hread
    exact hread
  | false =>
    rw [hsign] at hread
    rw [if_neg Bool.false_ne_true, List.nil_append]
    split
    · rename_i cs h
      exact absurd h (unsignedChars_ne_minus d cs)
    · exact hread

end Calculator.Decimal
