import Mathlib
import Calculator.Proofs.FloatTexts
import Calculator.Proofs.RoundedNumbers

/-!
# Values of literals

A literal denotes a rational number (`Literal.denoted`), and its value is that number rounded to the
nearest, ties to the even significand. Zeros and points that leave the rational number as it is leave
the value as it is, and values have the order of the rational numbers
(`Literal.value_correctly_rounded`).
-/

namespace Calculator

open Token (isSigned)

-- Powers of natural numbers are those of the definitions.
attribute [local instance (high)] instPowNat

/-! ## Digits and the numbers they denote -/

namespace FloatText

/-- The number that digits after a point denote. -/
def fractionValue : List Char → ℚ
  | [] => 0
  | c :: cs => ((c.toNat - '0'.toNat : Nat) + fractionValue cs) / 10

/-- The number that digits with at most one point denote. -/
def mantissaValue (cs : List Char) : ℚ :=
  Nat.ofDigitChars 10 (cs.takeWhile (· != '.')) 0 +
    fractionValue ((cs.dropWhile (· != '.')).drop 1)

theorem ofDigitChars_append (whole fraction : List Char) :
    Nat.ofDigitChars 10 (whole ++ fraction) 0 =
      10 ^ fraction.length * Nat.ofDigitChars 10 whole 0 + Nat.ofDigitChars 10 fraction 0 := by
  rw [Nat.ofDigitChars_append]
  exact Nat.ofDigitChars_eq_ofDigitChars_zero

theorem fractionValue_eq (cs : List Char) :
    fractionValue cs = (Nat.ofDigitChars 10 cs 0 : ℚ) / 10 ^ cs.length := by
  induction cs with
  | nil => simp [fractionValue]
  | cons c cs ih =>
    have hdigit : Nat.ofDigitChars 10 [c] 0 = c.toNat - '0'.toNat := by
      rw [Nat.ofDigitChars_cons, Nat.ofDigitChars_nil, Nat.mul_zero, Nat.zero_add]
    rw [fractionValue, ih, ← List.singleton_append, ofDigitChars_append, hdigit, List.length_append,
      List.length_singleton]
    push_cast
    field_simp
    ring

theorem isDigit_zeros (k : Nat) : ∀ c ∈ List.replicate k '0', c.isDigit = true :=
  List.forall_mem_replicate.2 (.inr rfl)

theorem point_not_mem {ds : List Char} (h : ∀ c ∈ ds, c.isDigit = true) : '.' ∉ ds :=
  List.count_eq_zero.1 (Decimal.count_point_eq_zero h)

namespace Mantissa

variable {coefficient places : Nat} {cs : List Char}

theorem value_eq (h : Mantissa coefficient places cs) :
    mantissaValue cs = (coefficient : ℚ) / 10 ^ places := by
  have hkeep {ds : List Char} (hds : ∀ c ∈ ds, c.isDigit = true) : ∀ c ∈ ds, (c != '.') = true := by
    intro c hc
    rw [bne_iff_ne]
    rintro rfl
    exact point_not_mem hds hc
  unfold mantissaValue
  cases h with
  | whole _ hdigits =>
    rw [List.takeWhile_eq_self_iff.2 (hkeep hdigits), List.dropWhile_eq_nil_iff.2 (hkeep hdigits)]
    simp [fractionValue]
  | @point whole fraction _ hwhole hfraction =>
    rw [List.takeWhile_append_of_pos (hkeep hwhole), List.takeWhile_cons_of_neg (by decide),
      List.append_nil, List.dropWhile_append_of_pos (hkeep hwhole),
      List.dropWhile_cons_of_neg (by decide), List.drop_one, List.tail_cons, fractionValue_eq,
      ofDigitChars_append]
    push_cast
    field_simp

/-- Zeros before the digits change neither of the numbers. -/
theorem leading_zeros (h : Mantissa coefficient places cs) (k : Nat) :
    Mantissa coefficient places (List.replicate k '0' ++ cs) := by
  have hvalue (ds : List Char) :
      Nat.ofDigitChars 10 (List.replicate k '0' ++ ds) 0 = Nat.ofDigitChars 10 ds 0 := by
    rw [Nat.ofDigitChars_append, Nat.ofDigitChars_replicate_zero, Nat.mul_zero]
  cases h with
  | whole hne hdigits =>
    rw [← hvalue cs]
    exact .whole (List.append_ne_nil_of_right_ne_nil _ hne)
      (List.forall_mem_append.2 ⟨isDigit_zeros k, hdigits⟩)
  | @point whole fraction hne hwhole hfraction =>
    rw [← hvalue (whole ++ fraction), ← List.append_assoc, ← List.append_assoc]
    refine .point ?_ (List.forall_mem_append.2 ⟨isDigit_zeros k, hwhole⟩) hfraction
    rw [List.append_assoc]
    exact List.append_ne_nil_of_right_ne_nil _ hne

/-- Zeros after the digits of a fraction are as many further places. -/
theorem trailing_zeros (h : Mantissa coefficient places cs) (hpoint : '.' ∈ cs) (k : Nat) :
    Mantissa (10 ^ k * coefficient) (places + k) (cs ++ List.replicate k '0') := by
  cases h with
  | whole _ hdigits => exact absurd hpoint (point_not_mem hdigits)
  | @point whole fraction hne hwhole hfraction =>
    have hvalue : Nat.ofDigitChars 10 (whole ++ (fraction ++ List.replicate k '0')) 0 =
        10 ^ k * Nat.ofDigitChars 10 (whole ++ fraction) 0 := by
      rw [← List.append_assoc, Nat.ofDigitChars_append, Nat.ofDigitChars_replicate_zero]
    have hplaces : (fraction ++ List.replicate k '0').length = fraction.length + k := by
      rw [List.length_append, List.length_replicate]
    rw [← hvalue, ← hplaces, List.append_assoc, List.cons_append]
    refine .point ?_ hwhole (List.forall_mem_append.2 ⟨hfraction, isDigit_zeros k⟩)
    rw [← List.append_assoc]
    exact List.append_ne_nil_of_left_ne_nil hne _

theorem trailing_point (h : Mantissa coefficient places cs) (hpoint : '.' ∉ cs) :
    Mantissa coefficient places (cs ++ ['.']) := by
  cases h with
  | whole hne hdigits =>
    have hmantissa : Mantissa (Nat.ofDigitChars 10 (cs ++ []) 0) 0 (cs ++ '.' :: []) :=
      .point (List.append_ne_nil_of_left_ne_nil hne _) hdigits (List.forall_mem_nil _)
    rwa [List.append_nil] at hmantissa
  | point => exact absurd (List.mem_append_right _ (.head _)) hpoint

end Mantissa

end FloatText

/-! ## Values -/

/-- Zeros at the end of a decimal do not change the number nearest to it. -/
theorem Decimal.toBinary64_scale (negative : Bool) (coefficient places k : Nat) :
    (Decimal.mk negative (10 ^ k * coefficient) (places + k)).toBinary64 =
      (Decimal.mk negative coefficient places).toBinary64 := by
  have hpos : 0 < 10 ^ k := Nat.pow_pos (by decide)
  simp only [Decimal.toBinary64]
  rw [Nat.mul_assoc, Nat.add_comm, Nat.pow_add, Magnitude.nearest_scale hpos]

namespace Literal

open Binary64 (signFactor)
open FloatText (Mantissa)

/-- The rational number that a literal denotes. -/
def denoted (text : String) : ℚ :=
  signFactor (isSigned text) * FloatText.mantissaValue (unsigned text)

section Mantissa

variable {text : String} {coefficient places : Nat} {cs : List Char}

theorem denoted_eq (h : Mantissa coefficient places (unsigned text)) :
    denoted text = signFactor (isSigned text) * ((coefficient : ℚ) / (10 ^ places : Nat)) := by
  rw [denoted, h.value_eq, Nat.cast_pow, Nat.cast_ofNat]

theorem rounds_mantissa (coefficient places : Nat) :
    (Magnitude.nearest (coefficient * Binary64.quantaPerUnit) (10 ^ places)).Rounds
      ((coefficient : ℚ) / (10 ^ places : Nat)) :=
  Magnitude.rounds_nearest coefficient (Nat.pow_pos (by decide))

theorem value_ofList {negative : Bool} (h : Mantissa coefficient places cs) :
    value (String.ofList ((if negative then ['-'] else []) ++ cs)) =
      .ok (Decimal.mk negative coefficient places).toBinary64 := by
  obtain ⟨hsigned, hunsigned⟩ := unsigned_eq h.unsigned.chars String.toList_ofList
  rw [value_eq_ok_iff_mantissa, hsigned, hunsigned]
  exact ⟨coefficient, places, h, rfl⟩

/-- Characters at the end of a literal that make it another mantissa. -/
theorem value_append (h : Mantissa coefficient places (unsigned text ++ cs)) :
    value (String.ofList (text.toList ++ cs)) =
      .ok (Decimal.mk (isSigned text) coefficient places).toBinary64 := by
  rw [toList_eq, List.append_assoc]
  exact value_ofList h

end Mantissa

theorem point_mem_unsigned_iff {text : String} : '.' ∈ unsigned text ↔ '.' ∈ text.toList := by
  rw [toList_eq]
  cases isSigned text <;> simp

/-- The value of a literal is the number it denotes, rounded to the nearest with ties to the even
significand, and its sign bit says whether there is a minus sign. Leading zeros, zeros at the end of a
fraction and a point at the end do not change it, and literals have the order of the numbers they
denote. -/
theorem value_correctly_rounded {text : String} {x : Binary64} (h : value text = .ok x) :
    x.IsRounded (isSigned text) (denoted text) ∧
    (∃ bits, x.bits? = some bits ∧ (2 ^ 63 ≤ bits.toNat ↔ text.toList.head? = some '-')) ∧
    (∀ k, value (String.ofList ((if isSigned text then ['-'] else []) ++
      (List.replicate k '0' ++ unsigned text))) = .ok x) ∧
    ('.' ∈ text.toList → ∀ k,
      value (String.ofList (text.toList ++ List.replicate k '0')) = .ok x) ∧
    ('.' ∉ text.toList → value (String.ofList (text.toList ++ ['.'])) = .ok x) ∧
    ∀ other y, value other = .ok y → denoted text ≤ denoted other →
      ∃ a b, x.toEReal? = some a ∧ y.toEReal? = some b ∧ a ≤ b := by
  obtain ⟨coefficient, places, hmantissa, rfl⟩ := value_eq_ok_iff_mantissa.1 h
  have hnonneg (c p : Nat) : 0 ≤ (c : ℚ) / (10 ^ p : Nat) :=
    div_nonneg (Nat.cast_nonneg _) (Nat.cast_nonneg _)
  refine ⟨?_, ?_, fun k => ?_, fun hpoint k => ?_, fun hpoint => ?_, fun other y hy hle => ?_⟩
  · rw [denoted_eq hmantissa]
    exact Binary64.isRounded_signed (hnonneg _ _) (rounds_mantissa coefficient places)
  · obtain ⟨bits, hbits, hsign⟩ := Binary64.sign_bit (isSigned text)
      (.nearest (coefficient * Binary64.quantaPerUnit) (10 ^ places))
    exact ⟨bits, hbits, hsign.trans beq_iff_eq⟩
  · exact value_ofList (hmantissa.leading_zeros k)
  · have hzeros := hmantissa.trailing_zeros (point_mem_unsigned_iff.2 hpoint) k
    rw [value_append hzeros, Decimal.toBinary64_scale]
  · exact value_append (hmantissa.trailing_point (mt point_mem_unsigned_iff.1 hpoint))
  · obtain ⟨coefficient', places', hmantissa', rfl⟩ := value_eq_ok_iff_mantissa.1 hy
    rw [denoted_eq hmantissa, denoted_eq hmantissa'] at hle
    exact Binary64.signed_le (hnonneg _ _) (hnonneg _ _) (rounds_mantissa coefficient places)
      (rounds_mantissa coefficient' places') hle

/-- A number half way between two others, with 2 ^ 53 as the even one of them, and a number that a
digit far behind puts above the middle. -/
theorem value_correctly_rounded_ties :
    value "-9007199254740993" = .ok (-9007199254740992) ∧
    denoted "-9007199254740993" = -9007199254740993 ∧
    Binary64.IsRounded true (-9007199254740993) (-9007199254740992) ∧
    value "-9007199254740993." = .ok (-9007199254740992) ∧
    value "-9007199254740993.0000000000000000000000000000001" = .ok (-9007199254740994) ∧
    ∃ a b, (-9007199254740994 : Binary64).toEReal? = some a ∧
      (-9007199254740992 : Binary64).toEReal? = some b ∧ a ≤ b := by
  have hvalue : value "-9007199254740993" = .ok (-9007199254740992) := by decide +kernel
  have hbelow : value "-9007199254740993.0000000000000000000000000000001" =
      .ok (-9007199254740994) := by decide +kernel
  have hdenoted : denoted "-9007199254740993" = -9007199254740993 := by decide +kernel
  have hsigned : isSigned "-9007199254740993" = true := by decide +kernel
  obtain ⟨hrounded, -, -, -, hpoint, -⟩ := value_correctly_rounded hvalue
  obtain ⟨-, -, -, -, -, horder⟩ := value_correctly_rounded hbelow
  rw [hdenoted, hsigned] at hrounded
  exact ⟨hvalue, hdenoted, hrounded, hpoint (by decide +kernel), hbelow,
    horder _ _ hvalue (by decide +kernel)⟩

end Literal

end Calculator
