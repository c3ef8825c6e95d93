import Mathlib
import Calculator.Proofs.Blame
import Calculator.Proofs.DecimalText
import Calculator.Proofs.PrintedValues

/-!
# Texts of floating-point numbers

The general notation of floating-point numbers has two signs, exponents, and words for what is not
finite (`FloatText`). A literal is a text in this notation that consists of digits and points after at
most one minus sign, and has the value of that text (`Literal.value_eq_ok_iff_floatText`). What the
scanner reads as a number always consists of such characters, so that only the number of its digits
and points can make it a bad literal (`Literal.value_recognised`).
-/

namespace Calculator

open Token (IsNumeral isLiteralChar isSigned tokenize)

-- Powers are those of natural numbers, as in the definitions.
attribute [local instance (high)] instPowNat

/-! ## The general notation -/

namespace FloatText

/-- A sign or none, and whether it is a minus sign. -/
inductive Sign : Bool → List Char → Prop
  | absent : Sign false []
  | plus : Sign false ['+']
  | minus : Sign true ['-']

/-- Digits with at most one point and at least one digit: the number they are without the point, and
how many of them follow it. -/
inductive Mantissa : Nat → Nat → List Char → Prop
  | whole {digits : List Char} : digits ≠ [] → (∀ c ∈ digits, c.isDigit = true) →
      Mantissa (Nat.ofDigitChars 10 digits 0) 0 digits
  | point {whole fraction : List Char} : whole ++ fraction ≠ [] →
      (∀ c ∈ whole, c.isDigit = true) → (∀ c ∈ fraction, c.isDigit = true) →
      Mantissa (Nat.ofDigitChars 10 (whole ++ fraction) 0) fraction.length
        (whole ++ '.' :: fraction)

/-- A power of ten or none, and its exponent. -/
inductive Power : Int → List Char → Prop
  | absent : Power 0 []
  | present {mark : Char} {negative : Bool} {sign digits : List Char} : mark.toLower = 'e' →
      Sign negative sign → digits ≠ [] → (∀ c ∈ digits, c.isDigit = true) →
      Power ((if negative then -1 else 1) * Nat.ofDigitChars 10 digits 0) (mark :: (sign ++ digits))

end FloatText

open FloatText (Sign Mantissa Power)

/-- The texts of floating-point numbers, in lower or upper case, and the numbers: a mantissa with a
power of ten is rounded to the nearest one. -/
inductive FloatText : Binary64 → List Char → Prop
  | nan {negative : Bool} {sign word : List Char} : Sign negative sign →
      word.map Char.toLower = "nan".toList → FloatText .nan (sign ++ word)
  | infinity {negative : Bool} {sign word : List Char} : Sign negative sign →
      word.map Char.toLower = "inf".toList ∨ word.map Char.toLower = "infinity".toList →
      FloatText (.signed negative .infinity) (sign ++ word)
  | number {negative : Bool} {coefficient places : Nat} {exponent : Int}
      {sign digits power : List Char} : Sign negative sign → Mantissa coefficient places digits →
      Power exponent power →
      FloatText
        (.signed negative (.nearest (coefficient * 10 ^ exponent.toNat * Binary64.quantaPerUnit)
          (10 ^ (places + (-exponent).toNat))))
        (sign ++ digits ++ power)

/-! ## Digits with a point -/

namespace FloatText

theorem Mantissa.unsigned {coefficient places : Nat} {cs : List Char}
    (h : Mantissa coefficient places cs) : Decimal.Unsigned cs := by
  cases h with
  | whole hne hdigits => exact (Decimal.unsigned_digits_iff hdigits).2 hne
  | point hne hwhole hfraction =>
    exact (Decimal.unsigned_append_iff hwhole (by decide)).2 ⟨rfl, hfraction, hne⟩

/-- Reading finds the mantissas. -/
theorem readUnsigned?_eq_some_iff {negative : Bool} {cs : List Char} {d : Decimal} :
    Decimal.readUnsigned? negative cs = some d ↔
      d.negative = negative ∧ Mantissa d.coefficient d.places cs := by
  constructor
  · intro h
    have hunsigned : Decimal.Unsigned cs :=
      Decimal.readUnsigned?_isSome_iff.1 (Option.isSome_iff_exists.2 ⟨_, h⟩)
    have hsplit : cs.takeWhile Char.isDigit ++ cs.dropWhile Char.isDigit = cs :=
      List.takeWhile_append_dropWhile
    have hwhole : ∀ c ∈ cs.takeWhile Char.isDigit, c.isDigit = true :=
      List.all_eq_true.1 List.all_takeWhile
    have hstop := List.head?_dropWhile_not Char.isDigit cs
    generalize cs.takeWhile Char.isDigit = whole at hsplit hwhole
    cases hd : cs.dropWhile Char.isDigit with
    | nil =>
      rw [hd, List.append_nil] at hsplit
      subst hsplit
      have hne := (Decimal.unsigned_digits_iff hwhole).1 hunsigned
      rw [Decimal.readUnsigned?_digits hwhole hne] at h
      cases h
      exact ⟨rfl, .whole hne hwhole⟩
    | cons c fraction =>
      rw [hd] at hsplit hstop
      subst hsplit
      obtain ⟨rfl, hfraction, hne⟩ :=
        (Decimal.unsigned_append_iff hwhole (by simpa using hstop)).1 hunsigned
      rw [Decimal.readUnsigned?_point hwhole hne hfraction] at h
      cases h
      exact ⟨rfl, .point hne hwhole hfraction⟩
  · obtain ⟨sign, coefficient, places⟩ := d
    rintro ⟨rfl, h⟩
    cases h with
    | whole hne hdigits => exact Decimal.readUnsigned?_digits hdigits hne
    | point hne hwhole hfraction => exact Decimal.readUnsigned?_point hwhole hne hfraction

end FloatText

/-! ## Literals -/

namespace Literal

/-- The text without a minus sign at its start. -/
def unsigned (text : String) : List Char :=
  match text.toList with
  | '-' :: cs => cs
  | cs => cs

/-- Whether a text has only digits and points after at most one minus sign, and has one of them. -/
def isLexical (text : String) : Bool := !(unsigned text).isEmpty && (unsigned text).all isLiteralChar

variable {text : String}

/-- The minus sign is the first character if it is there. -/
theorem sign_cases (text : String) :
    (text.toList = '-' :: unsigned text ∧ isSigned text = true) ∨
      (∀ cs, text.toList ≠ '-' :: cs) ∧ unsigned text = text.toList ∧ isSigned text = false := by
  unfold unsigned isSigned
  cases htext : text.toList with
  | nil => simp
  | cons c cs => by_cases hc : c = '-' <;> simp [hc]

theorem toList_eq (text : String) :
    text.toList = (if isSigned text then ['-'] else []) ++ unsigned text := by
  rcases sign_cases text with ⟨htext, hsign⟩ | ⟨-, htext, hsign⟩
  · simp [htext, hsign]
  · simp [htext, hsign]

theorem unsigned_eq {negative : Bool} {cs : List Char} (hcs : ∀ c ∈ cs, isLiteralChar c = true)
    (htext : text.toList = (if negative then ['-'] else []) ++ cs) :
    isSigned text = negative ∧ unsigned text = cs := by
  rcases sign_cases text with ⟨hminus, hsign⟩ | ⟨hminus, hunsigned, hsign⟩
  · cases negative with
    | true => simp_all
    | false =>
      -- A minus sign is no character of `cs`.
      rw [hminus, if_neg Bool.false_ne_true, List.nil_append] at htext
      exact absurd (hcs '-' (htext ▸ .head _)) (by decide)
  · cases negative with
    | true => exact absurd htext (hminus cs)
    | false => simp_all

theorem read?_eq (text : String) :
    Decimal.read? text = Decimal.readUnsigned? (isSigned text) (unsigned text) := by
  rw [Decimal.read?]
  rcases sign_cases text with ⟨htext, hsign⟩ | ⟨hminus, htext, hsign⟩
  · rw [htext, hsign]
    rfl
  · rw [htext, hsign]
    split
    · rename_i cs h
      exact absurd h (hminus cs)
    · rfl

theorem wellFormed_iff : WellFormed text ↔ Decimal.Unsigned (unsigned text) := by
  rw [← value_eq_ok_iff, ← @Decimal.readUnsigned?_isSome_iff (isSigned text), ← read?_eq, value]
  cases Decimal.read? text <;> simp

/-- A literal's value is its mantissa, rounded. -/
theorem value_eq_ok_iff_mantissa {v : Binary64} :
    value text = .ok v ↔
      ∃ coefficient places, Mantissa coefficient places (unsigned text) ∧
        v = (Decimal.mk (isSigned text) coefficient places).toBinary64 := by
  unfold value
  constructor
  · intro h
    cases hread : Decimal.read? text with
    | none =>
      rw [hread] at h
      cases h
    | some d =>
      rw [hread] at h
      rw [read?_eq, FloatText.readUnsigned?_eq_some_iff] at hread
      exact ⟨_, _, hread.2, hread.1 ▸ (Except.ok.inj h).symm⟩
  · rintro ⟨coefficient, places, hmantissa, rfl⟩
    have hread : Decimal.read? text = some ⟨isSigned text, coefficient, places⟩ := by
      rw [read?_eq]
      exact FloatText.readUnsigned?_eq_some_iff.2 ⟨rfl, hmantissa⟩
    rw [hread]

/-! ## Literals among the texts of floating-point numbers -/

theorem isLexical_iff :
    isLexical text = true ↔ unsigned text ≠ [] ∧ ∀ c ∈ unsigned text, isLiteralChar c = true := by
  simp [isLexical]

theorem isLexical_of_unsigned (h : Decimal.Unsigned (unsigned text)) : isLexical text = true := by
  obtain ⟨c, hc, -⟩ := h.digit
  exact isLexical_iff.2 ⟨List.ne_nil_of_mem hc, h.chars⟩

theorem mem_of_isLexical (h : isLexical text = true) {c : Char} (hc : c ∈ text.toList) :
    isLiteralChar c = true ∨ c = '-' := by
  rw [toList_eq, List.mem_append] at hc
  rcases hc with hsign | hc
  · split at hsign
    · exact .inr (List.mem_singleton.1 hsign)
    · cases hsign
  · exact .inl ((isLexical_iff.1 h).2 c hc)

/-- In a text of digits and points there is no letter in lower or upper case. -/
theorem toLower_of_isLexical (h : isLexical text = true) {c : Char} (hc : c ∈ text.toList) :
    c.toLower = c := by
  have hcase : c.isDigit = true ∨ c = '.' ∨ c = '-' := by
    have hmem := mem_of_isLexical h hc
    rwa [isLiteralChar, Bool.or_eq_true, beq_iff_eq, or_assoc] at hmem
  rcases hcase with hdigit | rfl | rfl
  · simp only [Char.isDigit, Bool.and_eq_true, decide_eq_true_eq] at hdigit
    have hhigh : c.val.toNat ≤ 57 := hdigit.2
    unfold Char.toLower
    split
    · rename_i hupper
      have hlow : 65 ≤ c.val.toNat := hupper.1
      omega
    · rfl
  · rfl
  · rfl

theorem not_mem_toLower (h : isLexical text = true) {d : Char}
    (hd : isLiteralChar d = false ∧ d ≠ '-') : d ∉ text.toList.map Char.toLower := by
  rw [List.map_congr_left fun c hc => toLower_of_isLexical h hc, List.map_id']
  intro hmem
  rcases mem_of_isLexical h hmem with hliteral | rfl
  · exact absurd hliteral (Bool.eq_false_iff.1 hd.1)
  · exact hd.2 rfl

/-- The mark of a power of ten is a character that no literal has. -/
theorem isLexical_of_power {exponent : Int} {before power : List Char} (h : Power exponent power)
    (hne : power ≠ []) (htext : text.toList = before ++ power) : isLexical text = false := by
  cases h with
  | absent => exact absurd rfl hne
  | present hmark =>
    rw [← Bool.not_eq_true]
    intro hlexical
    refine absurd ?_ (not_mem_toLower hlexical (d := 'e') (by decide))
    simp [htext, hmark]

/-- A text has a value as a literal exactly if it is the text of this number and consists of digits and
points after at most one minus sign. -/
theorem value_eq_ok_iff_floatText {v : Binary64} :
    value text = .ok v ↔ FloatText v text.toList ∧ isLexical text = true := by
  constructor
  · intro h
    obtain ⟨coefficient, places, hmantissa, rfl⟩ := value_eq_ok_iff_mantissa.1 h
    refine ⟨?_, isLexical_of_unsigned hmantissa.unsigned⟩
    have hsign : Sign (isSigned text) (if isSigned text then ['-'] else []) := by
      cases isSigned text
      · exact .absent
      · exact .minus
    have hnumber := FloatText.number hsign hmantissa .absent
    rw [List.append_nil, ← toList_eq] at hnumber
    simpa [Decimal.toBinary64] using hnumber
  · rintro ⟨hfloat, hlexical⟩
    -- Words, powers of ten and plus signs have characters that no literal has.
    have hnone {d : Char} (hd : isLiteralChar d = false ∧ d ≠ '-') :=
      not_mem_toLower hlexical hd
    generalize htext : text.toList = cs at hfloat hnone
    cases hfloat with
    | nan _ hword =>
      refine absurd ?_ (@hnone 'n' (by decide))
      simp [hword]
    | infinity _ hword =>
      refine absurd ?_ (@hnone 'i' (by decide))
      rcases hword with hword | hword <;> simp [hword]
    | @number negative coefficient places exponent sign digits power hsign hmantissa hpower =>
      cases hpower with
      | present hmark hexponent hdigits hall =>
        have hnot := isLexical_of_power (.present hmark hexponent hdigits hall)
          (List.cons_ne_nil _ _) htext
        exact absurd hlexical (Bool.eq_false_iff.1 hnot)
      | absent =>
        have hminus : sign = if negative then ['-'] else [] := by
          cases hsign with
          | absent | minus => rfl
          | plus =>
            refine absurd ?_ (@hnone '+' (by decide))
            simp
        rw [List.append_nil, hminus] at htext
        obtain ⟨hsigned, hunsigned⟩ := unsigned_eq hmantissa.unsigned.chars htext
        refine value_eq_ok_iff_mantissa.2 ⟨coefficient, places, hunsigned ▸ hmantissa, ?_⟩
        simp [Decimal.toBinary64, hsigned]

/-- With a power of ten a mantissa is the text of a floating-point number, but no literal. -/
theorem floatText_of_power {negative : Bool} {coefficient places : Nat} {exponent : Int}
    {sign digits power : List Char} (hsign : Sign negative sign)
    (hmantissa : Mantissa coefficient places digits) (hpower : Power exponent power)
    (hne : power ≠ []) (htext : text.toList = sign ++ digits ++ power) :
    (∃ v, FloatText v text.toList) ∧ isLexical text = false := by
  have hnumber := FloatText.number hsign hmantissa hpower
  rw [← htext] at hnumber
  exact ⟨⟨_, hnumber⟩, isLexical_of_power hpower hne htext⟩

/-! ## Numbers in a text -/

theorem isLexical_of_isNumeral (h : IsNumeral text.toList) : isLexical text = true := by
  obtain ⟨ds, htext, hne, hds⟩ := h
  have hunsigned : unsigned text = ds := by
    rcases htext with htext | htext
    · exact (@unsigned_eq text false ds hds htext).2
    · exact (@unsigned_eq text true ds hds htext).2
  exact isLexical_iff.2 (hunsigned ▸ ⟨hne, hds⟩)

/-- What digits and points lack to be a literal is a digit, or there are too many points. -/
theorem wellFormed_iff_of_isLexical (h : isLexical text = true) :
    WellFormed text ↔ (∃ c ∈ text.toList, c.isDigit = true) ∧ text.toList.count '.' ≤ 1 := by
  have hdigit : (∃ c ∈ text.toList, c.isDigit = true) ↔
      ∃ c ∈ unsigned text, c.isDigit = true := by
    rw [toList_eq]
    cases isSigned text <;> simp
  have hcount : text.toList.count '.' = (unsigned text).count '.' := by
    rw [toList_eq]
    cases isSigned text <;> simp
  rw [wellFormed_iff, hdigit, hcount]
  exact ⟨fun h => ⟨h.digit, h.point⟩, fun h' => ⟨(isLexical_iff.1 h).2, h'.2, h'.1⟩⟩

theorem value_eq_error_iff_not_wellFormed : value text = .error ⟨text⟩ ↔ ¬ WellFormed text := by
  rw [← value_eq_ok_iff, value]
  cases Decimal.read? text <;> simp

/-- A text has a value as a literal exactly if it is well formed, and as the text of the
floating-point number that this value is; any other text is reported as it is. A literal is one token
and has the same value as an expression. A number in any text consists of digits and points after at
most one minus sign, and has no value exactly if it has no digit or more than one point. -/
theorem value_recognised (text : String) :
    ((∃ v, value text = .ok v) ↔ WellFormed text) ∧
    (value text = .error ⟨text⟩ ↔ ¬ WellFormed text) ∧
    (∀ v, value text = .ok v ↔ FloatText v text.toList ∧ isLexical text = true) ∧
    (∀ v, value text = .ok v → tokenize text = [.number text] ∧ evaluate text = .ok v) ∧
    ∀ literal, .number literal ∈ tokenize text →
      isLexical literal = true ∧
      (value literal = .error ⟨literal⟩ ↔
        (∀ c ∈ literal.toList, c.isDigit = false) ∨ 1 < literal.toList.count '.') := by
  refine ⟨value_eq_ok_iff, value_eq_error_iff_not_wellFormed, fun v => value_eq_ok_iff_floatText,
    fun v hv => ?_, fun literal hmem => ?_⟩
  · exact ⟨Token.tokenize_literal (value_eq_ok_iff.1 ⟨v, hv⟩), evaluate_literal hv⟩
  · have hlexical := isLexical_of_isNumeral ((Token.lexical_scan _ _).isNumeral hmem)
    refine ⟨hlexical, ?_⟩
    rw [value_eq_error_iff_not_wellFormed, wellFormed_iff_of_isLexical hlexical, not_and_or]
    simp

/-- A literal with a sign and no digit before the point, and a bad number in a longer text. -/
theorem value_recognised_each :
    (∃ v, value "-.5" = .ok v ∧ tokenize "-.5" = [.number "-.5"] ∧ evaluate "-.5" = .ok v) ∧
    .number "-1..2" ∈ tokenize "3*(-1..2e5)" ∧ isLexical "-1..2" = true ∧
      (value "-1..2" = .error ⟨"-1..2"⟩ ↔
        (∀ c ∈ "-1..2".toList, c.isDigit = false) ∨ 1 < "-1..2".toList.count '.') := by
  obtain ⟨v, hv⟩ : ∃ v, value "-.5" = .ok v := ⟨_, rfl⟩
  have hmem : .number "-1..2" ∈ tokenize "3*(-1..2e5)" := by decide +kernel
  obtain ⟨-, -, -, hvalue, -⟩ := value_recognised "-.5"
  obtain ⟨-, -, -, -, hnumber⟩ := value_recognised "3*(-1..2e5)"
  exact ⟨⟨v, hv, hvalue v hv⟩, hmem, hnumber _ hmem⟩

end Literal

end Calculator
