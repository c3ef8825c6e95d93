import Mathlib
import Calculator.Proofs.Joining

/-!
# Texts cut at a character

A character that is no digit or point cuts a text: what stands before it is read as it is alone, and
what stands after it is read as it is alone or, where no operand is wanted, with the sign of its
first number as an operator (`scan_unwanted`). `tokenize_cut` says so for each kind of character;
the minus sign is the one that may join what follows it.
-/

namespace Calculator.Token

/-- Whether an operand is wanted after the tokens: there are none, or the last is an operator or
`(`. -/
def endsWanting (tokens : List Token) : Bool := tokens.getLast?.all wantsOperand

/-- The tokens with the sign of a number at their front as an operator before it. -/
def unsign : List Token → List Token
  | .number text :: rest =>
    match text.toList with
    | '-' :: unsigned => .operator .sub :: .number (String.ofList unsigned) :: rest
    | _ => .number text :: rest
  | tokens => tokens

/-- The tokens with a minus sign before the text of the first number. -/
def signFirst : List Token → List Token
  | [] => []
  | .number text :: rest => .number ("-" ++ text) :: rest
  | token :: rest => token :: signFirst rest

theorem wantsAfter_eq (wanted : Bool) (tokens : List Token) :
    wantsAfter wanted tokens = (tokens.getLast?.map wantsOperand).getD wanted := by
  induction tokens generalizing wanted with
  | nil => rfl
  | cons token rest ih =>
    rw [wantsAfter, ih, List.getLast?_cons]
    cases rest.getLast? <;> rfl

theorem wantsAfter_true (tokens : List Token) : wantsAfter true tokens = endsWanting tokens := by
  rw [wantsAfter_eq, endsWanting]
  cases tokens.getLast? <;> rfl

/-! ## Where no operand is wanted -/

theorem unsign_of_not_signed {text : String} (h : isSigned text = false) (rest : List Token) :
    unsign (.number text :: rest) = .number text :: rest := by
  rw [unsign]
  split
  · rename_i unsigned htext
    simp [isSigned, htext] at h
  · rfl

/-- Where no operand is wanted the sign of the first number is an operator, and nothing else is
read differently. -/
theorem scan_unwanted (cs : List Char) : scan false cs = unsign (scan true cs) := by
  suffices h : ∀ wanted, wanted = true → scan false cs = unsign (scan wanted cs) from h true rfl
  intro wanted
  induction wanted, cs using scan_induction with
  | nil wanted =>
    intro _
    rw [scan, scan, unsign]
    rintro _ _ ⟨⟩
  | number wanted text rest hnumeral hsign hrest _ =>
    rintro rfl
    rw [scan_number hnumeral hsign hrest]
    cases hsigned : isSigned text with
    | false =>
      have hfree : isSigned text = true → false = true := by rw [hsigned]; exact id
      rw [scan_number hnumeral hfree hrest, unsign_of_not_signed hsigned]
    | true =>
      rw [isSigned, beq_iff_eq, List.head?_eq_some_iff] at hsigned
      obtain ⟨ds, htext⟩ := hsigned
      rw [htext] at hnumeral
      have hunsigned : IsNumeral (String.ofList ds).toList := by
        rw [String.toList_ofList]
        exact ⟨ds, .inl rfl, hnumeral.of_cons_minus⟩
      have hop := @scan_operator .sub false (ds ++ rest)
        (fun _ hwanted => absurd hwanted Bool.false_ne_true)
      have hnumber := @scan_number _ hunsigned true (fun _ => rfl) _ hrest
      rw [String.toList_ofList] at hnumber
      rw [unsign, htext]
      exact hop.trans (congrArg _ hnumber)
  | operator wanted op rest hsign _ =>
    rintro rfl
    have hfree : op = .sub → false = true → startsLiteral rest = false :=
      fun _ hwanted => absurd hwanted Bool.false_ne_true
    rw [scan_operator hsign, scan_operator hfree]
    rfl
  | paren wanted side rest _ =>
    intro _
    rw [scan_paren, scan_paren]
    rfl
  | filler wanted c rest hc ih =>
    intro hwanted
    rw [scan_filler hc, scan_filler hc, ih hwanted]

/-- A minus sign before a literal where an operand is wanted becomes the literal's. -/
theorem scan_sign {cs : List Char} (h : startsLiteral cs = true) :
    scan true ('-' :: cs) = signFirst (scan true cs) := by
  obtain ⟨c, cs, rfl⟩ : ∃ c rest, cs = c :: rest := by
    cases cs with
    | nil => cases h
    | cons c rest => exact ⟨c, rest, rfl⟩
  have hc : isLiteralChar c = true := h
  have hsigned : scan true ('-' :: c :: cs) =
      .number (String.ofList ('-' :: c :: cs.takeWhile isLiteralChar)) ::
        scan false (cs.dropWhile isLiteralChar) := by
    rw [scan, startsLiteral, hc, if_pos (by decide), List.takeWhile_cons, if_pos hc,
      List.dropWhile_cons, if_pos hc]
  have hunsigned : scan true (c :: cs) =
      .number (String.ofList (c :: cs.takeWhile isLiteralChar)) ::
        scan false (cs.dropWhile isLiteralChar) := by
    rw [scan, hc, Bool.true_or, if_pos rfl]
  have htext (ds : List Char) : String.ofList ('-' :: ds) = "-" ++ String.ofList ds :=
    @String.ofList_append ['-'] ds
  rw [hsigned, hunsigned, signFirst, htext]

/-! ## The cut -/

theorem tokenize_append {s₁ s₂ : String} (h : startsLiteral s₂.toList = false) :
    tokenize (s₁ ++ s₂) = tokenize s₁ ++ scan (endsWanting (tokenize s₁)) s₂.toList := by
  rw [tokenize, String.toList_append, scan_append h, wantsAfter_true]
  rfl

/-- The scan of a gap and what comes after it. -/
theorem tokenize_gap {gap : String} (hne : gap ≠ "") (hgap : ∀ c ∈ gap.toList, isFiller c = true)
    (s₁ s₂ : String) :
    tokenize (s₁ ++ gap ++ s₂) =
      tokenize s₁ ++
        if endsWanting (tokenize s₁) then tokenize s₂ else unsign (tokenize s₂) := by
  have hstop : startsLiteral (gap ++ s₂).toList = false := by
    rw [String.toList_append]
    cases hchars : gap.toList with
    | nil => exact absurd (String.toList_eq_nil_iff.1 hchars) hne
    | cons c rest => exact startsLiteral_of_isFiller (hgap c (hchars ▸ .head _)) _
  rw [String.append_assoc, tokenize_append hstop, String.toList_append, scan_gap hgap]
  cases endsWanting (tokenize s₁) with
  | false => exact congrArg _ (scan_unwanted _)
  | true => rfl

/-- How a text is read that is cut at a character other than a digit or the point: the parts are
read as they are alone, but for the sign of the second part's first number. It is an operator after
`)`, and after a character of no token where no operand is wanted; a minus sign where an operand is
wanted becomes the sign of a literal right after it. Characters of no token may be replaced by
others. -/
theorem tokenize_cut (s₁ s₂ : String) :
    tokenize (s₁ ++ "(" ++ s₂) = tokenize s₁ ++ [.paren .left] ++ tokenize s₂ ∧
    (∀ op : Operator, op ≠ .sub →
      tokenize (s₁ ++ op.text ++ s₂) = tokenize s₁ ++ [.operator op] ++ tokenize s₂) ∧
    tokenize (s₁ ++ ")" ++ s₂) = tokenize s₁ ++ [.paren .right] ++ unsign (tokenize s₂) ∧
    tokenize (s₁ ++ "-" ++ s₂) =
      (if endsWanting (tokenize s₁) && startsLiteral s₂.toList then
        tokenize s₁ ++ signFirst (tokenize s₂)
      else tokenize s₁ ++ [.operator .sub] ++ tokenize s₂) ∧
    (∀ c, isFiller c = true →
      tokenize (s₁ ++ String.singleton c ++ s₂) =
        tokenize s₁ ++
          if endsWanting (tokenize s₁) then tokenize s₂ else unsign (tokenize s₂)) ∧
    ∀ gap gap' : String, gap ≠ "" → gap' ≠ "" → (∀ c ∈ gap.toList, isFiller c = true) →
      (∀ c ∈ gap'.toList, isFiller c = true) →
      tokenize (s₁ ++ gap ++ s₂) = tokenize (s₁ ++ gap' ++ s₂) := by
  have hcut {c : Char} (hc : isLiteralChar c = false) :
      tokenize (s₁ ++ String.singleton c ++ s₂) =
        tokenize s₁ ++ scan (endsWanting (tokenize s₁)) (c :: s₂.toList) := by
    have hchars : (String.singleton c ++ s₂).toList = c :: s₂.toList := by
      rw [String.toList_append, String.toList_singleton, List.singleton_append]
    have hstop : startsLiteral (String.singleton c ++ s₂).toList = false := by
      rw [hchars]
      exact hc
    rw [String.append_assoc, tokenize_append hstop, hchars]
  refine ⟨?_, fun op hop => ?_, ?_, ?_, fun c hc => ?_, fun gap gap' hne hne' hgap hgap' => ?_⟩
  · refine (@hcut '(' rfl).trans ?_
    rw [List.append_assoc]
    exact congrArg _ (scan_paren .left _ _)
  · have hliteral : isLiteralChar op.symbol = false := by cases op <;> rfl
    rw [List.append_assoc]
    exact (hcut hliteral).trans (congrArg _ (scan_operator fun hsub => absurd hsub hop))
  · refine (@hcut ')' rfl).trans ?_
    rw [List.append_assoc, tokenize, tokenize, ← scan_unwanted]
    exact congrArg _ (scan_paren .right _ _)
  · refine (@hcut '-' rfl).trans ?_
    split
    · rename_i hsign
      rw [Bool.and_eq_true] at hsign
      rw [hsign.1, scan_sign hsign.2]
      rfl
    · rename_i hsign
      rw [List.append_assoc]
      refine congrArg _ (@scan_operator .sub _ _ fun _ hwanted => ?_)
      rw [hwanted, Bool.true_and] at hsign
      exact Bool.eq_false_iff.2 hsign
  · have hgap : ∀ d ∈ (String.singleton c).toList, isFiller d = true := by
      rw [String.toList_singleton]
      exact List.forall_mem_singleton.2 hc
    have hne : String.singleton c ≠ "" := by
      rw [Ne, ← String.toList_eq_nil_iff, String.toList_singleton]
      exact List.cons_ne_nil _ _
    exact tokenize_gap hne hgap s₁ s₂
  · rw [tokenize_gap hne hgap, tokenize_gap hne' hgap']

/-- `*`, a letter and two different gaps after `(1` and before `-.5 2`. -/
theorem tokenize_cut_each :
    (Operator.mul ≠ .sub ∧
      tokenize ("(1" ++ Operator.mul.text ++ "-.5 2") =
        tokenize "(1" ++ [.operator .mul] ++ tokenize "-.5 2") ∧
    (isFiller 'x' = true ∧
      tokenize ("(1" ++ String.singleton 'x' ++ "-.5 2") =
        tokenize "(1" ++
          if endsWanting (tokenize "(1") then tokenize "-.5 2" else unsign (tokenize "-.5 2")) ∧
    (" " ≠ "" ∧ "é\n" ≠ "" ∧ (∀ c ∈ " ".toList, isFiller c = true) ∧
      (∀ c ∈ "é\n".toList, isFiller c = true) ∧
      tokenize ("(1" ++ " " ++ "-.5 2") = tokenize ("(1" ++ "é\n" ++ "-.5 2")) := by
  obtain ⟨-, hop, -, -, hfiller, hgaps⟩ := tokenize_cut "(1" "-.5 2"
  have hmul : Operator.mul ≠ .sub := by decide
  have hx : isFiller 'x' = true := by decide
  have hblank : ∀ c ∈ " ".toList, isFiller c = true := by simp [isFiller]
  have hother : ∀ c ∈ "é\n".toList, isFiller c = true := by simp [isFiller]
  exact ⟨⟨hmul, hop .mul hmul⟩, ⟨hx, hfiller 'x' hx⟩, by decide, by decide, hblank, hother,
    hgaps " " "é\n" (by decide) (by decide) hblank hother⟩

/-- The sign of `-.5` is an operator after `1` and a sign after `(`. -/
example : tokenize "1x-.5" = [.number "1", .operator .sub, .number ".5"] ∧
    tokenize "(x-.5" = [.paren .left, .number "-.5"] := by
  decide +kernel

end Calculator.Token
