import Mathlib
import Calculator.Evaluation
import Calculator.Proofs.Alternation
import Calculator.Proofs.Scanning

/-!
# Spelling of token lists

A text spells a token list if it is the tokens' texts in order, with characters of no token before,
between and after them (`Spells`). A gap may be empty except between two tokens that would be read
as one without it: two numbers, or a minus sign that would be the next number's (`needsGap`).
`tokenize_eq_iff` says that a text is read as exactly the lexical list that it spells. Where values
and operators alternate no gap is needed (`Layout.scan_eq`), and a list shown with blanks between its
tokens has all gaps that are (`gapped_spaced`). Gaps and texts have no character in common, so reading
a text keeps all of it but the gaps (`join_text_tokenize`).
-/

namespace Calculator.Token

/-- Whether two tokens in a row would be read as one if there were no gap between them;
`operandWanted` is for the place of the first. -/
def needsGap (operandWanted : Bool) : Token → Token → Bool
  | .number _, .number _ => true
  | .operator .sub, .number text => operandWanted && !isSigned text
  | _, _ => false

/-- The characters are the tokens' texts in order, each with a gap after it; no gap that is needed
is empty. -/
inductive Gapped : Bool → List Token → List Char → Prop
  | nil {wanted : Bool} : Gapped wanted [] []
  | cons {wanted : Bool} {token : Token} {rest : List Token} {gap cs : List Char} :
      (∀ c ∈ gap, isFiller c = true) →
      (∀ next ∈ rest.head?, needsGap wanted token next = true → gap ≠ []) →
      Gapped token.wantsOperand rest cs →
      Gapped wanted (token :: rest) (token.text.toList ++ gap ++ cs)

/-- The characters are a first gap and then the tokens' texts with gaps after them. -/
def Spells (operandWanted : Bool) (tokens : List Token) (cs : List Char) : Prop :=
  ∃ gap body, (∀ c ∈ gap, isFiller c = true) ∧ cs = gap ++ body ∧
    Gapped operandWanted tokens body

theorem toList_text_operator (op : Operator) : (operator op).text.toList = [op.symbol] :=
  String.toList_singleton _

theorem toList_text_paren (side : Paren) : (paren side).text.toList = [side.symbol] :=
  String.toList_singleton _

/-! ## Where a gap is needed -/

/-- Whether a literal right after the token would become part of it. -/
def absorbs (operandWanted : Bool) : Token → Bool
  | .number _ => true
  | .operator .sub => operandWanted
  | .operator _ | .paren _ => false

/-- Whether the token is a number without a sign. -/
def isUnsigned : Token → Bool
  | .number text => !isSigned text
  | .operator _ | .paren _ => false

theorem needsGap_eq {wanted : Bool} {token next : Token} (h : next.FitsAt token.wantsOperand) :
    needsGap wanted token next = (token.absorbs wanted && next.isUnsigned) := by
  rcases next with text | op | side
  · rcases token with text' | op | side
    · have hsign : isSigned text = false := Bool.eq_false_iff.2 fun hs => nomatch h.2 hs
      simp [needsGap, absorbs, isUnsigned, hsign]
    · cases op <;> rfl
    · rfl
  · rcases token with text' | op' | side
    · rfl
    · cases op' <;> simp [needsGap, isUnsigned]
    · rfl
  · rcases token with text' | op | side'
    · rfl
    · cases op <;> simp [needsGap, isUnsigned]
    · rfl

/-- Only a number without a sign starts with a digit or point. -/
theorem FitsAt.startsLiteral_text {wanted : Bool} {token : Token} (h : token.FitsAt wanted)
    (cs : List Char) : startsLiteral (token.text.toList ++ cs) = token.isUnsigned := by
  rcases token with text | op | side
  · obtain ⟨⟨ds, htext, hne, hds⟩, -⟩ := h
    obtain ⟨d, ds, rfl⟩ := List.exists_cons_of_ne_nil hne
    have hd : isLiteralChar d = true := hds d (.head _)
    rcases htext with htext | htext
    · have hminus : d ≠ '-' := by
        rintro rfl
        exact absurd hd (by decide)
      simp [Token.text, htext, startsLiteral, isUnsigned, isSigned, hd, hminus]
    · simp [Token.text, htext, startsLiteral, isUnsigned, isSigned, isLiteralChar]
  · cases op <;> rfl
  · cases side <;> rfl

theorem Gapped.startsLiteral_eq {wanted : Bool} {tokens : List Token} {cs : List Char}
    (h : Gapped wanted tokens cs) (hlex : Lexical wanted tokens) :
    startsLiteral cs = tokens.head?.any isUnsigned := by
  cases h with
  | nil => rfl
  | cons _ _ _ =>
    rw [List.append_assoc, hlex.1.startsLiteral_text]
    rfl

/-- A gap after a token is as needed exactly if no literal that would become part of the token comes
right after it. -/
theorem gap_iff {wanted : Bool} {token : Token} {rest : List Token} {gap cs : List Char}
    (hgap : ∀ c ∈ gap, isFiller c = true) (hrest : Gapped token.wantsOperand rest cs)
    (hlex : Lexical token.wantsOperand rest) :
    (∀ next ∈ rest.head?, needsGap wanted token next = true → gap ≠ []) ↔
      (token.absorbs wanted = true → startsLiteral (gap ++ cs) = false) := by
  cases gap with
  | cons c gap => simp [startsLiteral_of_isFiller (hgap c (.head _))]
  | nil =>
    rw [List.nil_append, hrest.startsLiteral_eq hlex]
    cases rest with
    | nil => simp
    | cons next rest => simp [needsGap_eq hlex.1]

/-! ## From a spelling to the tokens -/

theorem Gapped.scan_eq {wanted : Bool} {tokens : List Token} {cs : List Char}
    (h : Gapped wanted tokens cs) (hlex : Lexical wanted tokens) : scan wanted cs = tokens := by
  induction h with
  | nil => rw [scan]
  | @cons wanted token rest gap cs hgap hneeds hrest ih =>
    have hstop := (gap_iff hgap hrest hlex.2).1 hneeds
    have hscan : scan token.wantsOperand (gap ++ cs) = rest := by
      rw [scan_gap hgap, ih hlex.2]
    rw [List.append_assoc]
    rcases token with text | op | side
    · exact (scan_number hlex.1.1 hlex.1.2 (hstop rfl)).trans (congrArg _ hscan)
    · rw [toList_text_operator]
      refine (scan_operator ?_).trans (congrArg _ hscan)
      rintro rfl hwanted
      exact hstop hwanted
    · rw [toList_text_paren]
      exact (scan_paren side _ _).trans (congrArg _ hscan)

theorem Spells.scan_eq {wanted : Bool} {tokens : List Token} {cs : List Char}
    (h : Spells wanted tokens cs) (hlex : Lexical wanted tokens) : scan wanted cs = tokens := by
  obtain ⟨gap, body, hgap, rfl, hbody⟩ := h
  rw [scan_gap hgap, hbody.scan_eq hlex]

/-! ## Alternating values and operators -/

/-- The characters are the tokens' texts in order, with any fillers before, between and after
them. -/
inductive Layout : List Token → List Char → Prop
  | nil (gap : List Char) : (∀ c ∈ gap, isFiller c = true) → Layout [] gap
  | cons (gap : List Char) {token : Token} {rest : List Token} {cs : List Char} :
      (∀ c ∈ gap, isFiller c = true) → Layout rest cs →
      Layout (token :: rest) (gap ++ token.text.toList ++ cs)

theorem Lexical.of_alternates {wanted : Bool} {tokens : List Token} (halt : Alternates wanted tokens)
    (hnum : ∀ text, .number text ∈ tokens → IsNumeral text.toList) : Lexical wanted tokens := by
  induction tokens generalizing wanted with
  | nil => trivial
  | cons token rest ih =>
    obtain ⟨rfl, hrest⟩ := alternates_cons.1 halt
    refine ⟨?_, ih hrest fun text ht => hnum text (.tail _ ht)⟩
    rcases token with text | op | side
    · exact ⟨hnum text (.head _), fun _ => rfl⟩
    · trivial
    · trivial

/-- Between a value and an operator no gap is needed. -/
theorem needsGap_of_alternates {wanted : Bool} {token next : Token} {rest : List Token}
    (halt : Alternates wanted (token :: next :: rest)) : needsGap wanted token next = false := by
  obtain ⟨rfl, hrest⟩ := alternates_cons.1 halt
  obtain ⟨hnext, -⟩ := alternates_cons.1 hrest
  rcases token with text | op | side
  · cases next <;> first | rfl | cases hnext
  · cases op <;> cases next <;> rfl
  · rfl

theorem Layout.spells {tokens : List Token} {cs : List Char} (h : Layout tokens cs) {wanted : Bool}
    (halt : Alternates wanted tokens) : Spells wanted tokens cs := by
  induction h generalizing wanted with
  | nil gap hgap => exact ⟨gap, [], hgap, (List.append_nil gap).symm, .nil⟩
  | @cons gap token rest cs hgap _ ih =>
    obtain ⟨after, body, hafter, rfl, hbody⟩ := ih (alternates_cons.1 halt).2
    refine ⟨gap, token.text.toList ++ after ++ body, hgap, by simp, .cons hafter ?_ hbody⟩
    intro next hnext hneeds
    obtain ⟨rest, rfl⟩ := List.head?_eq_some_iff.1 hnext
    rw [needsGap_of_alternates halt] at hneeds
    cases hneeds

/-- Alternating values and operators are read from every text that has them in order, whatever the
gaps. -/
theorem Layout.scan_eq {tokens : List Token} {cs : List Char} (h : Layout tokens cs)
    {wanted : Bool} (halt : Alternates wanted tokens)
    (hnum : ∀ text, .number text ∈ tokens → IsNumeral text.toList) : scan wanted cs = tokens :=
  (h.spells halt).scan_eq (.of_alternates halt hnum)

/-! ## From the tokens to the spelling -/

/-- A token whose text no literal runs into, before what is spelled already. -/
theorem Spells.cons {wanted : Bool} {token : Token} {rest : List Token} {cs : List Char}
    (hrest : Spells token.wantsOperand rest cs) (hlex : Lexical token.wantsOperand rest)
    (hstop : token.absorbs wanted = true → startsLiteral cs = false) :
    Spells wanted (token :: rest) (token.text.toList ++ cs) := by
  obtain ⟨gap, body, hgap, rfl, hbody⟩ := hrest
  have hneeds := (gap_iff hgap hbody hlex).2 hstop
  refine ⟨[], _, nofun, (List.nil_append _).symm, ?_⟩
  rw [← List.append_assoc]
  exact .cons hgap hneeds hbody

theorem spells_scan (wanted : Bool) (cs : List Char) : Spells wanted (scan wanted cs) cs := by
  induction wanted, cs using scan_induction with
  | nil wanted => exact ⟨[], [], List.forall_mem_nil _, rfl, by rw [scan]; exact .nil⟩
  | number wanted text rest hnumeral hsign hrest ih =>
    rw [scan_number hnumeral hsign hrest]
    exact @Spells.cons _ (.number text) _ _ ih (lexical_scan _ _) fun _ => hrest
  | operator wanted op rest hsign ih =>
    have hstop : (operator op).absorbs wanted = true → startsLiteral rest = false := by
      intro habsorbs
      cases op with
      | sub => exact hsign rfl habsorbs
      | add | mul | div => cases habsorbs
    have h := @Spells.cons _ (.operator op) _ _ ih (lexical_scan _ _) hstop
    rw [toList_text_operator] at h
    rw [scan_operator hsign]
    exact h
  | paren wanted side rest ih =>
    have hstop : (paren side).absorbs wanted = true → startsLiteral rest = false :=
      fun habsorbs => absurd habsorbs Bool.false_ne_true
    have h := @Spells.cons _ (.paren side) _ _ ih (lexical_scan _ _) hstop
    rw [toList_text_paren] at h
    rw [scan_paren]
    exact h
  | filler wanted c rest hc ih =>
    obtain ⟨gap, body, hgap, rfl, hbody⟩ := ih
    rw [scan_filler hc]
    exact ⟨c :: gap, body, List.forall_mem_cons.2 ⟨hc, hgap⟩, rfl, hbody⟩

/-- A text is read as the lexical list of tokens that it spells, and as no other. -/
theorem tokenize_eq_iff {source : String} {tokens : List Token} :
    tokenize source = tokens ↔ Lexical true tokens ∧ Spells true tokens source.toList := by
  constructor
  · rintro rfl
    exact ⟨lexical_scan _ _, spells_scan _ _⟩
  · rintro ⟨hlex, hspells⟩
    exact hspells.scan_eq hlex

/-- The blank keeps the minus sign from being the number's. -/
example : tokenize "- 2" = [.operator .sub, .number "2"] ∧ tokenize "-2" = [.number "-2"] := by
  decide +kernel

/-! ## Tokens shown with blanks between them -/

theorem gapped_spaced (wanted : Bool) (tokens : List Token) :
    Gapped wanted tokens (spaced tokens).toList := by
  induction tokens generalizing wanted with
  | nil => exact .nil
  | cons token rest ih =>
    cases rest with
    | nil =>
      have h := @Gapped.cons wanted token [] [] [] nofun nofun .nil
      rw [List.append_nil, List.append_nil] at h
      rwa [spaced, List.map_singleton, String.intercalate_singleton]
    | cons next rest =>
      have h := @Gapped.cons wanted token (next :: rest) [' '] _
        (List.forall_mem_singleton.2 rfl) (fun _ _ _ => List.cons_ne_nil _ _) (ih _)
      rw [spaced, List.map_cons, List.map_cons, String.intercalate_cons_cons,
        String.toList_append, String.toList_append]
      exact h

theorem tokenize_spaced (source : String) : tokenize (spaced (tokenize source)) = tokenize source :=
  tokenize_eq_iff.2
    ⟨lexical_scan _ _, [], _, nofun, (List.nil_append _).symm, gapped_spaced _ _⟩

/-- The tokens of a text are lexical, and a text is read as a token list exactly if the list is
lexical and the text spells it. Shown with blanks between them, the tokens of a text are read again
as the same tokens and have the same evaluation. -/
theorem tokens_iff_spelled (source : String) :
    Lexical true (tokenize source) ∧
      (∀ tokens, tokenize source = tokens ↔
        Lexical true tokens ∧ Spells true tokens source.toList) ∧
      tokenize (spaced (tokenize source)) = tokenize source ∧
      Evaluation.ofText (spaced (tokenize source)) = Evaluation.ofText source := by
  refine ⟨lexical_scan _ _, fun tokens => tokenize_eq_iff, tokenize_spaced source, ?_⟩
  rw [Evaluation.ofText, Evaluation.ofText, tokenize_spaced]

/-! ## The characters of the tokens -/

theorem FitsAt.not_isFiller {wanted : Bool} {token : Token} (h : token.FitsAt wanted) {c : Char}
    (hc : c ∈ token.text.toList) : isFiller c = false := by
  rcases token with text | op | side
  · rw [Bool.eq_false_iff]
    intro hfiller
    rcases h.1.mem hc with hliteral | rfl
    · rw [isLiteralChar_of_isFiller hfiller] at hliteral
      cases hliteral
    · exact ne_minus_of_isFiller hfiller rfl
  · rw [toList_text_operator, List.mem_singleton] at hc
    subst hc
    cases op <;> rfl
  · rw [toList_text_paren, List.mem_singleton] at hc
    subst hc
    cases side <;> rfl

theorem filter_gap {gap : List Char} (h : ∀ c ∈ gap, isFiller c = true) :
    gap.filter (!isFiller ·) = [] :=
  List.filter_eq_nil_iff.2 fun c hc => by simp [h c hc]

/-- The gaps are fillers and the texts have none, so the texts are what is left without fillers. -/
theorem Gapped.filter_eq {wanted : Bool} {tokens : List Token} {cs : List Char}
    (h : Gapped wanted tokens cs) (hlex : Lexical wanted tokens) :
    cs.filter (!isFiller ·) = tokens.flatMap (·.text.toList) := by
  induction h with
  | nil => rfl
  | @cons wanted token rest gap cs hgap _ _ ih =>
    have htext : token.text.toList.filter (!isFiller ·) = token.text.toList :=
      List.filter_eq_self.2 fun c hc => by rw [hlex.1.not_isFiller hc]; rfl
    rw [List.filter_append, List.filter_append, htext, filter_gap hgap, List.append_nil, ih hlex.2,
      List.flatMap_cons]

theorem Spells.filter_eq {wanted : Bool} {tokens : List Token} {cs : List Char}
    (h : Spells wanted tokens cs) (hlex : Lexical wanted tokens) :
    cs.filter (!isFiller ·) = tokens.flatMap (·.text.toList) := by
  obtain ⟨gap, body, hgap, rfl, hbody⟩ := h
  rw [List.filter_append, filter_gap hgap, List.nil_append, hbody.filter_eq hlex]

/-- The texts of the tokens, one after another, are the text read without the characters that are
part of no token. No number is empty or a minus sign alone. -/
theorem join_text_tokenize (source : String) :
    String.join ((tokenize source).map text) =
        String.ofList (source.toList.filter (!isFiller ·)) ∧
      .number "" ∉ tokenize source ∧ .number "-" ∉ tokenize source := by
  have hlex : Lexical true (tokenize source) := lexical_scan _ _
  have hspells : Spells true (tokenize source) source.toList := spells_scan _ _
  refine ⟨?_, fun h => (hlex.isNumeral h).ne_nil rfl,
    fun h => (hlex.isNumeral h).of_cons_minus.1 rfl⟩
  rw [hspells.filter_eq hlex, ← String.toList_inj, String.toList_join, String.toList_ofList,
    List.flatMap_map]

end Calculator.Token
