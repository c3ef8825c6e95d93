import Mathlib
import Calculator.Literal
import Calculator.Proofs.Scanning

/-!
# Which texts are literals

A text has a value exactly if it is an optional minus sign and then digits with at most one point,
at least one digit among them (`Literal.value_eq_ok_iff`). Such a text is one word of the scanner
(`Literal.WellFormed.isNumeral`).
-/

namespace Calculator

open Token (isLiteralChar)

namespace Decimal

/-- Digits with at most one point, and at least one digit. -/
structure Unsigned (cs : List Char) : Prop where
  chars : ∀ c ∈ cs, isLiteralChar c = true
  point : cs.count '.' ≤ 1
  digit : ∃ c ∈ cs, c.isDigit = true

theorem isLiteralChar_of_isDigit {c : Char} (h : c.isDigit = true) : isLiteralChar c = true := by
  rw [isLiteralChar, h, Bool.true_or]

theorem count_point_eq_zero {cs : List Char} (h : ∀ c ∈ cs, c.isDigit = true) :
    cs.count '.' = 0 :=
  List.count_eq_zero.2 fun hmem => absurd (h _ hmem) (by decide)

theorem isDigit_of_literal {cs : List Char} (h : ∀ c ∈ cs, isLiteralChar c = true)
    (hpoint : cs.count '.' = 0) : ∀ c ∈ cs, c.isDigit = true := by
  intro c hc
  have hlit := h c hc
  rw [isLiteralChar, Bool.or_eq_true, beq_iff_eq] at hlit
  rcases hlit with hdigit | rfl
  · exact hdigit
  · exact absurd hc (List.count_eq_zero.1 hpoint)

/-- Digits up to the end of the text. -/
theorem unsigned_digits_iff {whole : List Char} (h : ∀ c ∈ whole, c.isDigit = true) :
    Unsigned whole ↔ whole ≠ [] := by
  constructor
  · rintro ⟨-, -, c, hc, -⟩
    exact List.ne_nil_of_mem hc
  · intro hne
    obtain ⟨c, rest, rfl⟩ := List.exists_cons_of_ne_nil hne
    exact ⟨fun c hc => isLiteralChar_of_isDigit (h c hc), by rw [count_point_eq_zero h]; omega,
      c, .head _, h c (.head _)⟩

/-- Digits up to another character. -/
theorem unsigned_append_iff {whole fraction : List Char} {c : Char}
    (h : ∀ c ∈ whole, c.isDigit = true) (hc : ¬ c.isDigit = true) :
    Unsigned (whole ++ c :: fraction) ↔
      c = '.' ∧ (∀ d ∈ fraction, d.isDigit = true) ∧ whole ++ fraction ≠ [] := by
  constructor
  · rintro ⟨hchars, hpoint, d, hd, hdigit⟩
    obtain rfl : c = '.' := by
      have hlit := hchars c (by simp)
      simpa [isLiteralChar, hc] using hlit
    rw [List.count_append, List.count_cons_self, count_point_eq_zero h] at hpoint
    refine ⟨rfl, isDigit_of_literal (fun d hd => hchars d (by simp [hd])) (by omega), ?_⟩
    have hmem : d ∈ whole ++ fraction := by
      rcases List.mem_append.1 hd with hd | hd
      · exact List.mem_append_left _ hd
      · rcases List.mem_cons.1 hd with rfl | hd
        · exact absurd hdigit hc
        · exact List.mem_append_right _ hd
    exact List.ne_nil_of_mem hmem
  · rintro ⟨rfl, hfraction, hne⟩
    have hdigits : ∀ d ∈ whole ++ fraction, d.isDigit = true :=
      List.forall_mem_append.2 ⟨h, hfraction⟩
    obtain ⟨d, rest, hd⟩ := List.exists_cons_of_ne_nil hne
    have hmem : d ∈ whole ++ fraction := hd ▸ .head _
    refine ⟨fun c hc => ?_, ?_, d, ?_, hdigits d hmem⟩
    · rcases List.mem_append.1 hc with hc | hc
      · exact isLiteralChar_of_isDigit (h c hc)
      · rcases List.mem_cons.1 hc with rfl | hc
        · decide
        · exact isLiteralChar_of_isDigit (hfraction c hc)
    · simp [count_point_eq_zero h, count_point_eq_zero hfraction]
    · exact (List.mem_append.1 hmem).elim (List.mem_append_left _)
        fun hd => List.mem_append_right _ (.tail _ hd)

theorem readUnsigned?_isSome_iff {negative : Bool} {cs : List Char} :
    (readUnsigned? negative cs).isSome = true ↔ Unsigned cs := by
  have hsplit : cs.takeWhile Char.isDigit ++ cs.dropWhile Char.isDigit = cs :=
    List.takeWhile_append_dropWhile
  have hwhole : ∀ c ∈ cs.takeWhile Char.isDigit, c.isDigit = true :=
    List.all_eq_true.1 List.all_takeWhile
  have hstop := List.head?_dropWhile_not Char.isDigit cs
  rw [readUnsigned?]
  generalize cs.takeWhile Char.isDigit = whole at *
  cases hd : cs.dropWhile Char.isDigit with
  | nil =>
    rw [hd, List.append_nil] at hsplit
    subst hsplit
    rw [unsigned_digits_iff hwhole]
    cases whole <;> simp
  | cons c fraction =>
    rw [hd] at hsplit hstop
    subst hsplit
    rw [unsigned_append_iff hwhole (by simpa using hstop)]
    simp only [Bool.and_eq_true, beq_iff_eq, List.all_eq_true, Bool.not_eq_true',
      List.isEmpty_eq_false_iff]
    split <;> simp_all

end Decimal

namespace Literal

/-- An optional minus sign, and then digits with at most one point. -/
def WellFormed (text : String) : Prop :=
  ∃ cs, (text.toList = cs ∨ text.toList = '-' :: cs) ∧ Decimal.Unsigned cs

/-- The texts that have a value are the well-formed ones. -/
theorem value_eq_ok_iff {text : String} : (∃ v, value text = .ok v) ↔ WellFormed text := by
  have hread : (∃ v, value text = .ok v) ↔ (Decimal.read? text).isSome = true := by
    unfold value
    cases Decimal.read? text <;> simp
  rw [hread, Decimal.read?]
  split
  · rename_i cs htext
    rw [Decimal.readUnsigned?_isSome_iff]
    constructor
    · exact fun h => ⟨cs, .inr htext, h⟩
    · rintro ⟨ds, hds | hds, h⟩
      · rw [htext] at hds
        subst hds
        exact absurd (h.chars '-' (.head _)) (by decide)
      · rw [htext, List.cons.injEq] at hds
        exact hds.2 ▸ h
  · rename_i hminus
    rw [Decimal.readUnsigned?_isSome_iff]
    constructor
    · exact fun h => ⟨text.toList, .inl rfl, h⟩
    · rintro ⟨ds, hds | hds, h⟩
      · exact hds ▸ h
      · exact absurd hds (hminus ds)

theorem WellFormed.isNumeral {text : String} (h : WellFormed text) :
    Token.IsNumeral text.toList := by
  obtain ⟨cs, htext, hchars, -, d, hd, -⟩ := h
  exact ⟨cs, htext, List.ne_nil_of_mem hd, hchars⟩

end Literal

end Calculator
