import Mathlib
import Calculator.Token.Lexer

/-!
# Scanning token by token

What the scan does at the first characters of a text: it passes over characters that are part of no
token (`scan_gap`) and reads a token's own text as that token (`scan_number`, `scan_operator`,
`scan_paren`). A text is taken apart so from token to token (`scan_induction`): whatever the text,
the numbers read from it are numerals, and those with a sign stand where an operand is wanted
(`lexical_scan`).
-/

namespace Calculator.Token

/-- Whether a character is part of no token: it is no ASCII digit and none of `. + - * / ( )`. -/
def isFiller (c : Char) : Bool :=
  !c.isDigit && c != '.' && c != '+' && c != '-' && c != '*' && c != '/' && c != '(' && c != ')'

/-- A minus sign or none, and then one or more digits and points. -/
def IsNumeral (cs : List Char) : Prop :=
  ∃ ds, (cs = ds ∨ cs = '-' :: ds) ∧ ds ≠ [] ∧ ∀ c ∈ ds, isLiteralChar c = true

theorem IsNumeral.ne_nil {cs : List Char} (h : IsNumeral cs) : cs ≠ [] := by
  obtain ⟨ds, rfl | rfl, hne, -⟩ := h
  · exact hne
  · exact List.cons_ne_nil _ _

theorem IsNumeral.mem {cs : List Char} (h : IsNumeral cs) {c : Char} (hc : c ∈ cs) :
    isLiteralChar c = true ∨ c = '-' := by
  obtain ⟨ds, rfl | rfl, -, hds⟩ := h
  · exact .inl (hds c hc)
  · rcases List.mem_cons.1 hc with rfl | hc
    · exact .inr rfl
    · exact .inl (hds c hc)

/-- After its minus sign, a signed numeral has digits and points. -/
theorem IsNumeral.of_cons_minus {cs : List Char} (h : IsNumeral ('-' :: cs)) :
    cs ≠ [] ∧ ∀ c ∈ cs, isLiteralChar c = true := by
  obtain ⟨ds, rfl | hminus, hne, hds⟩ := h
  · exact absurd (hds '-' (.head _)) (by decide)
  · obtain rfl := (List.cons.inj hminus).2
    exact ⟨hne, hds⟩

/-- Whether a text begins with a minus sign. -/
def isSigned (text : String) : Bool := text.toList.head? == some '-'

/-- A number is a numeral, and a signed one stands where an operand is wanted. -/
def FitsAt (operandWanted : Bool) : Token → Prop
  | .number text => IsNumeral text.toList ∧ (isSigned text = true → operandWanted = true)
  | .operator _ | .paren _ => True

/-- Every number of the list is a numeral, and every signed one stands where an operand is wanted:
after an operator or `(`, or, if `operandWanted`, at the start. -/
def Lexical (operandWanted : Bool) : List Token → Prop
  | [] => True
  | token :: rest => token.FitsAt operandWanted ∧ Lexical token.wantsOperand rest

/-! ## Characters of no token -/

theorem isLiteralChar_of_isFiller {c : Char} (h : isFiller c = true) : isLiteralChar c = false := by
  simp only [isFiller, Bool.and_eq_true, bne_iff_ne, Bool.not_eq_true'] at h
  simp [isLiteralChar, h]

theorem ne_minus_of_isFiller {c : Char} (h : isFiller c = true) : c ≠ '-' := by
  rintro rfl
  exact absurd h (by decide)

theorem ofChar?_of_isFiller {c : Char} (h : isFiller c = true) : ofChar? c = none := by
  simp only [isFiller, Bool.and_eq_true, bne_iff_ne, Bool.not_eq_true'] at h
  unfold ofChar? Operator.ofSymbol?
  split
  · simp_all
  · simp_all
  · split <;> simp_all

theorem startsLiteral_of_isFiller {c : Char} (h : isFiller c = true) (cs : List Char) :
    startsLiteral (c :: cs) = false :=
  isLiteralChar_of_isFiller h

theorem scan_filler {c : Char} (h : isFiller c = true) (wanted : Bool) (cs : List Char) :
    scan wanted (c :: cs) = scan wanted cs := by
  rw [scan]
  simp [isLiteralChar_of_isFiller h, ne_minus_of_isFiller h, ofChar?_of_isFiller h]

theorem scan_gap {gap : List Char} (h : ∀ c ∈ gap, isFiller c = true) (wanted : Bool)
    (cs : List Char) : scan wanted (gap ++ cs) = scan wanted cs := by
  induction gap with
  | nil => rfl
  | cons c gap ih =>
    rw [List.cons_append, scan_filler (h c (.head _))]
    exact ih fun c hc => h c (.tail _ hc)

/-! ## A token's own text -/

theorem takeWhile_literal {ds cs : List Char} (hds : ∀ c ∈ ds, isLiteralChar c = true)
    (hcs : startsLiteral cs = false) : (ds ++ cs).takeWhile isLiteralChar = ds := by
  rw [List.takeWhile_append_of_pos hds]
  cases cs with
  | nil => exact List.append_nil _
  | cons c cs =>
    rw [List.takeWhile_cons, show isLiteralChar c = false from hcs]
    exact List.append_nil _

theorem dropWhile_literal {ds cs : List Char} (hds : ∀ c ∈ ds, isLiteralChar c = true)
    (hcs : startsLiteral cs = false) : (ds ++ cs).dropWhile isLiteralChar = cs := by
  rw [List.dropWhile_append_of_pos hds]
  cases cs with
  | nil => rfl
  | cons c cs => rw [List.dropWhile_cons, show isLiteralChar c = false from hcs]; rfl

/-- A numeral is read as one number, a signed one if an operand is wanted. -/
theorem scan_number {text : String} (h : IsNumeral text.toList) {wanted : Bool}
    (hsign : isSigned text = true → wanted = true) {cs : List Char}
    (hcs : startsLiteral cs = false) :
    scan wanted (text.toList ++ cs) = .number text :: scan false cs := by
  obtain ⟨ds, htext, hne, hds⟩ := h
  obtain ⟨d, ds, rfl⟩ := List.exists_cons_of_ne_nil hne
  have hd : isLiteralChar d = true := hds d (.head _)
  rcases htext with htext | htext
  · have hrest : ∀ c ∈ ds, isLiteralChar c = true := fun c hc => hds c (.tail _ hc)
    rw [htext, List.cons_append, scan, hd, Bool.true_or, if_pos rfl, takeWhile_literal hrest hcs,
      dropWhile_literal hrest hcs, ← htext, String.ofList_toList]
  · obtain rfl : wanted = true := hsign (by simp [isSigned, htext])
    have hminus : (isLiteralChar '-' || ('-' == '-' && true && startsLiteral (d :: ds ++ cs))) =
        true := by
      rw [List.cons_append, startsLiteral, hd]
      decide
    rw [htext, List.cons_append, scan, if_pos hminus, takeWhile_literal hds hcs,
      dropWhile_literal hds hcs, ← htext, String.ofList_toList]

theorem scan_paren (side : Paren) (wanted : Bool) (cs : List Char) :
    scan wanted (side.symbol :: cs) = .paren side :: scan (wantsOperand (.paren side)) cs := by
  cases side <;> rw [scan] <;> simp [Paren.symbol, isLiteralChar, ofChar?]

/-- An operator is read as such, a minus sign only if it is not a literal's. -/
theorem scan_operator {op : Operator} {wanted : Bool} {cs : List Char}
    (h : op = .sub → wanted = true → startsLiteral cs = false) :
    scan wanted (op.symbol :: cs) = .operator op :: scan true cs := by
  have hchar : ofChar? op.symbol = some (.operator op) := by cases op <;> rfl
  have hliteral : isLiteralChar op.symbol = false := by cases op <;> rfl
  have hsign : (op.symbol == '-' && wanted && startsLiteral cs) = false := by
    cases op with
    | sub => cases wanted <;> simp_all
    | add | mul | div => rfl
  rw [scan, hliteral, hsign, hchar]
  rfl

/-! ## From token to token -/

theorem ofChar?_eq_some {c : Char} {token : Token} (h : ofChar? c = some token) :
    (∃ op, token = .operator op ∧ c = op.symbol) ∨ ∃ side, token = .paren side ∧ c = side.symbol := by
  unfold ofChar? at h
  split at h
  · obtain rfl := Option.some.inj h
    exact .inr ⟨.left, rfl, rfl⟩
  · obtain rfl := Option.some.inj h
    exact .inr ⟨.right, rfl, rfl⟩
  · obtain ⟨op, hop, rfl⟩ := Option.map_eq_some_iff.1 h
    exact .inl ⟨op, rfl, Operator.ofSymbol?_eq_some_iff.1 hop⟩

theorem isFiller_of_ofChar? {c : Char} (hliteral : isLiteralChar c = false)
    (h : ofChar? c = none) : isFiller c = true := by
  simp only [isLiteralChar, Bool.or_eq_false_iff, beq_eq_false_iff_ne] at hliteral
  have hsymbol : c ≠ '+' ∧ c ≠ '-' ∧ c ≠ '*' ∧ c ≠ '/' ∧ c ≠ '(' ∧ c ≠ ')' := by
    refine ⟨?_, ?_, ?_, ?_, ?_, ?_⟩ <;> rintro rfl <;> cases h
  simp [isFiller, hliteral, hsymbol]

/-- Digits and points are a numeral from their first character on, or from a minus sign before
them. -/
theorem isNumeral_cons_takeWhile {c : Char} {rest : List Char}
    (h : isLiteralChar c = true ∨ c = '-' ∧ startsLiteral rest = true) :
    IsNumeral (c :: rest.takeWhile isLiteralChar) := by
  have hrest : ∀ d ∈ rest.takeWhile isLiteralChar, isLiteralChar d = true :=
    List.all_eq_true.1 List.all_takeWhile
  rcases h with hc | ⟨rfl, hstart⟩
  · exact ⟨_, .inl rfl, List.cons_ne_nil _ _, List.forall_mem_cons.2 ⟨hc, hrest⟩⟩
  · refine ⟨_, .inr rfl, ?_, hrest⟩
    cases rest with
    | nil => cases hstart
    | cons d rest =>
      rw [List.takeWhile_cons, if_pos (show isLiteralChar d = true from hstart)]
      exact List.cons_ne_nil _ _

theorem startsLiteral_dropWhile (cs : List Char) :
    startsLiteral (cs.dropWhile isLiteralChar) = false := by
  have h := List.head?_dropWhile_not isLiteralChar cs
  cases hd : cs.dropWhile isLiteralChar with
  | nil => rfl
  | cons c rest =>
    rw [hd] at h
    show isLiteralChar c = false
    simpa using h

/-- What holds of the empty text, and of a text if it holds of what follows its first token or its
first character that is part of none, holds of every text. -/
theorem scan_induction {motive : Bool → List Char → Prop} (nil : ∀ wanted, motive wanted [])
    (number : ∀ wanted (text : String) rest, IsNumeral text.toList →
      (isSigned text = true → wanted = true) → startsLiteral rest = false → motive false rest →
      motive wanted (text.toList ++ rest))
    (operator : ∀ wanted (op : Operator) rest,
      (op = .sub → wanted = true → startsLiteral rest = false) → motive true rest →
      motive wanted (op.symbol :: rest))
    (paren : ∀ wanted (side : Paren) rest, motive (wantsOperand (.paren side)) rest →
      motive wanted (side.symbol :: rest))
    (filler : ∀ wanted c rest, isFiller c = true → motive wanted rest → motive wanted (c :: rest))
    (wanted : Bool) (cs : List Char) : motive wanted cs := by
  induction wanted, cs using scan.induct with
  | case1 wanted => exact nil wanted
  | case2 wanted c rest hliteral ih =>
    simp only [Bool.or_eq_true, Bool.and_eq_true, beq_iff_eq] at hliteral
    have hnumeral := isNumeral_cons_takeWhile (hliteral.imp_right fun h => ⟨h.1.1, h.2⟩)
    have hsign : isSigned (String.ofList (c :: rest.takeWhile isLiteralChar)) = true →
        wanted = true := by
      intro hsign
      obtain rfl : c = '-' := by simpa [isSigned] using hsign
      rcases hliteral with h | h
      · exact absurd h (by decide)
      · exact h.1.2
    have h := number wanted _ _ (String.toList_ofList ▸ hnumeral) hsign
      (startsLiteral_dropWhile rest) ih
    rwa [String.toList_ofList, List.cons_append, List.takeWhile_append_dropWhile] at h
  | case3 wanted c rest hliteral token htoken ih =>
    rcases ofChar?_eq_some htoken with ⟨op, rfl, rfl⟩ | ⟨side, rfl, rfl⟩
    · refine operator wanted op rest ?_ ih
      -- A minus sign before a literal would have been read as the literal's.
      rintro rfl rfl
      simp only [Bool.or_eq_true, not_or, Bool.and_true] at hliteral
      exact Bool.eq_false_iff.2 hliteral.2
    · exact paren wanted side rest ih
  | case4 wanted c rest hliteral htoken ih =>
    simp only [Bool.or_eq_true, not_or] at hliteral
    exact filler wanted c rest (isFiller_of_ofChar? (Bool.eq_false_iff.2 hliteral.1) htoken) ih

/-- Whatever the text, its tokens stand where they may. -/
theorem lexical_scan (wanted : Bool) (cs : List Char) : Lexical wanted (scan wanted cs) := by
  induction wanted, cs using scan_induction with
  | nil wanted =>
    rw [scan]
    trivial
  | number wanted text rest hnumeral hsign hrest ih =>
    rw [scan_number hnumeral hsign hrest]
    exact ⟨⟨hnumeral, hsign⟩, ih⟩
  | operator wanted op rest hsign ih =>
    rw [scan_operator hsign]
    exact ⟨trivial, ih⟩
  | paren wanted side rest ih =>
    rw [scan_paren]
    exact ⟨trivial, ih⟩
  | filler wanted c rest hc ih =>
    rw [scan_filler hc]
    exact ih

theorem Lexical.isNumeral {wanted : Bool} {tokens : List Token} (h : Lexical wanted tokens)
    {text : String} (htext : .number text ∈ tokens) : IsNumeral text.toList := by
  induction tokens generalizing wanted with
  | nil => cases htext
  | cons token rest ih =>
    rcases List.mem_cons.1 htext with rfl | htext
    · exact h.1.1
    · exact ih h.2 htext

end Calculator.Token
