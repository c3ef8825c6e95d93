import Mathlib
import Calculator.Proofs.Alternation
import Calculator.Proofs.Scanning

/-!
# Texts put together

A text that does not begin with a literal is read, after another text, as it is read by itself where
an operand is wanted or not, as the other text's tokens say (`scan_append`). Parentheses cut a text
for good: what stands in a group is read as it would be alone (`scan_group`), and so is a text with
`(` before it and `)` after it (`tokenize_enclosed`). A text's parentheses are those of its tokens, so
that the one is balanced exactly if the others are (`balanced_tokenize_iff`).
-/

namespace Calculator

namespace Token

/-- Whether an operand is wanted after the tokens; `operandWanted` is for the place before them. -/
def wantsAfter (operandWanted : Bool) : List Token → Bool
  | [] => operandWanted
  | token :: rest => wantsAfter token.wantsOperand rest

/-! ## A text after another -/

theorem startsLiteral_append {ds : List Char} (h : startsLiteral ds = false) (cs : List Char) :
    startsLiteral (cs ++ ds) = startsLiteral cs := by
  cases cs with
  | nil => exact h
  | cons c cs => rfl

theorem scan_append {ds : List Char} (h : startsLiteral ds = false) (wanted : Bool)
    (cs : List Char) :
    scan wanted (cs ++ ds) =
      scan wanted cs ++ scan (wantsAfter wanted (scan wanted cs)) ds := by
  induction wanted, cs using scan_induction with
  | nil wanted => simp [scan, wantsAfter]
  | number wanted text rest hnumeral hsign hrest ih =>
    have hrest' := (startsLiteral_append h rest).trans hrest
    rw [List.append_assoc, scan_number hnumeral hsign hrest', scan_number hnumeral hsign hrest, ih]
    rfl
  | operator wanted op rest hsign ih =>
    have hsign' : op = .sub → wanted = true → startsLiteral (rest ++ ds) = false := by
      rw [startsLiteral_append h]
      exact hsign
    rw [List.cons_append, scan_operator hsign', scan_operator hsign, ih]
    rfl
  | paren wanted side rest ih =>
    rw [List.cons_append, scan_paren, scan_paren, ih]
    rfl
  | filler wanted c rest hc ih =>
    rw [List.cons_append, scan_filler hc, scan_filler hc, ih]

/-! ## Parentheses in a text -/

theorem startsLiteral_paren (side : Paren) (cs : List Char) :
    startsLiteral (side.symbol :: cs) = false := by
  cases side <;> rfl

/-- What stands in a group is read as it would be alone. -/
theorem scan_group (wanted : Bool) (cs ds : List Char) :
    scan wanted ('(' :: (cs ++ ')' :: ds)) =
      .paren .left :: (scan true cs ++ .paren .right :: scan false ds) := by
  have hleft := scan_paren .left wanted (cs ++ ')' :: ds)
  have hcut := scan_append (startsLiteral_paren .right ds) true cs
  rw [scan_paren] at hcut
  exact hleft.trans (congrArg _ hcut)

theorem tokenize_group (source : String) :
    tokenize ("(" ++ source ++ ")") =
      .paren .left :: (tokenize source ++ [.paren .right]) := by
  have h := scan_group true source.toList []
  rw [scan] at h
  rw [tokenize, String.toList_append, String.toList_append]
  exact h

/-- The text with `opening` times `(` before it and `closing` times `)` after it. -/
def enclose (opening closing : Nat) (source : String) : String :=
  String.ofList (List.replicate opening '(' ++ source.toList ++ List.replicate closing ')')

theorem scan_replicate_left (i : Nat) (cs : List Char) :
    scan true (List.replicate i '(' ++ cs) = List.replicate i (.paren .left) ++ scan true cs := by
  induction i with
  | zero => rfl
  | succ i ih =>
    rw [List.replicate_succ, List.replicate_succ, List.cons_append, List.cons_append, ← ih]
    exact scan_paren .left true _

theorem scan_replicate_right (wanted : Bool) (j : Nat) :
    scan wanted (List.replicate j ')') = List.replicate j (.paren .right) := by
  induction j generalizing wanted with
  | zero => rw [List.replicate_zero, scan, List.replicate_zero]
  | succ j ih =>
    rw [List.replicate_succ, List.replicate_succ, ← ih false]
    exact scan_paren .right wanted _

theorem tokenize_enclosed (i j : Nat) (source : String) :
    tokenize (enclose i j source) =
      List.replicate i (.paren .left) ++ tokenize source ++ List.replicate j (.paren .right) := by
  have hstop : startsLiteral (List.replicate j ')') = false := by cases j <;> rfl
  rw [tokenize, enclose, String.toList_ofList, List.append_assoc, scan_replicate_left,
    scan_append hstop, scan_replicate_right, tokenize, List.append_assoc]

/-! ## Balance -/

/-- The parenthesis that a token is, if it is one. -/
def side? : Token → Option Paren
  | .paren side => some side
  | .number _ | .operator _ => none

end Token

/-- The parenthesis that a character is, if it is one. -/
def Paren.ofSymbol? : Char → Option Paren
  | '(' => some .left
  | ')' => some .right
  | _ => none

/-- No prefix of the text closes more groups than it opens, and all groups are closed. -/
structure Text.Balanced (text : String) : Prop where
  prefix_le : ∀ u, u <+: text.toList → u.count ')' ≤ u.count '('
  total : text.toList.count '(' = text.toList.count ')'

instance (text : String) : Decidable (Text.Balanced text) :=
  decidable_of_iff
    ((∀ u ∈ text.toList.inits, u.count ')' ≤ u.count '(') ∧
      text.toList.count '(' = text.toList.count ')') <| by
    simp only [List.mem_inits]
    exact ⟨fun h => ⟨h.1, h.2⟩, fun h => ⟨h.prefix_le, h.total⟩⟩

namespace Paren

theorem ofSymbol?_eq_some_iff {c : Char} {side : Paren} :
    ofSymbol? c = some side ↔ c = side.symbol := by
  constructor
  · intro h
    unfold ofSymbol? at h
    split at h
    · cases h
      rfl
    · cases h
      rfl
    · cases h
  · rintro rfl
    cases side <;> rfl

theorem ofSymbol?_of_isLiteralChar {c : Char} (h : Token.isLiteralChar c = true) :
    ofSymbol? c = none := by
  cases hc : ofSymbol? c with
  | none => rfl
  | some side =>
    obtain rfl := ofSymbol?_eq_some_iff.1 hc
    cases side <;> exact absurd h (by decide)

theorem ofSymbol?_of_isFiller {c : Char} (h : Token.isFiller c = true) : ofSymbol? c = none := by
  cases hc : ofSymbol? c with
  | none => rfl
  | some side =>
    obtain rfl := ofSymbol?_eq_some_iff.1 hc
    cases side <;> exact absurd h (by decide)

end Paren

namespace Token

theorem side?_eq_some_iff {token : Token} {side : Paren} :
    token.side? = some side ↔ token = .paren side := by
  cases token <;> simp [side?]

/-- The tokens of a text have its parentheses. -/
theorem filterMap_side?_scan (wanted : Bool) (cs : List Char) :
    (scan wanted cs).filterMap side? = cs.filterMap Paren.ofSymbol? := by
  induction wanted, cs using scan_induction with
  | nil wanted =>
    rw [scan]
    rfl
  | number wanted text rest hnumeral hsign hrest ih =>
    have hnone : text.toList.filterMap Paren.ofSymbol? = [] := by
      rw [List.filterMap_eq_nil_iff]
      intro c hc
      rcases hnumeral.mem hc with hliteral | rfl
      · exact Paren.ofSymbol?_of_isLiteralChar hliteral
      · rfl
    rw [scan_number hnumeral hsign hrest, List.filterMap_cons_none rfl, ih, List.filterMap_append,
      hnone, List.nil_append]
  | operator wanted op rest hsign ih =>
    have hnone : Paren.ofSymbol? op.symbol = none := by cases op <;> rfl
    rw [scan_operator hsign, List.filterMap_cons_none rfl, ih, List.filterMap_cons_none hnone]
  | paren wanted side rest ih =>
    have htoken : (Token.paren side).side? = some side := rfl
    have hsymbol : Paren.ofSymbol? side.symbol = some side := Paren.ofSymbol?_eq_some_iff.2 rfl
    rw [scan_paren, List.filterMap_cons_some htoken, ih, List.filterMap_cons_some hsymbol]
  | filler wanted c rest hc ih =>
    rw [scan_filler hc, ih, List.filterMap_cons_none (Paren.ofSymbol?_of_isFiller hc)]

end Token

/-- Balance is a matter of the parentheses alone. -/
theorem Paren.balanced_iff {α : Type} [BEq α] [LawfulBEq α] {f : α → Option Paren}
    {symbol : Paren → α} (hf : ∀ {x side}, f x = some side ↔ x = symbol side) (xs : List α) :
    ((∀ u, u <+: xs → u.count (symbol .right) ≤ u.count (symbol .left)) ∧
        xs.count (symbol .left) = xs.count (symbol .right)) ↔
      (∀ u, u <+: xs.filterMap f → u.count .right ≤ u.count .left) ∧
        (xs.filterMap f).count .left = (xs.filterMap f).count .right := by
  have hcount (side : Paren) (u : List α) : (u.filterMap f).count side = u.count (symbol side) := by
    rw [List.count_filterMap, List.count]
    refine List.countP_congr fun x _ => ?_
    rw [beq_iff_eq, beq_iff_eq, hf]
  simp only [List.prefix_filterMap_iff, hcount]
  constructor
  · rintro ⟨hcloses, htotal⟩
    refine ⟨?_, htotal⟩
    rintro _ ⟨u, hu, rfl⟩
    rw [hcount, hcount]
    exact hcloses u hu
  · rintro ⟨hcloses, htotal⟩
    refine ⟨fun u hu => ?_, htotal⟩
    have h := hcloses _ ⟨u, hu, rfl⟩
    rwa [hcount, hcount] at h

/-- The tokens of a text are balanced exactly if the text is. -/
theorem Token.balanced_tokenize_iff {text : String} :
    Token.Balanced (tokenize text) ↔ Text.Balanced text := by
  have htokens := Paren.balanced_iff side?_eq_some_iff (scan true text.toList)
  have htext := Paren.balanced_iff Paren.ofSymbol?_eq_some_iff text.toList
  rw [filterMap_side?_scan, ← htext] at htokens
  constructor
  · rintro ⟨hcloses, htotal⟩
    obtain ⟨hcloses, htotal⟩ := htokens.1 ⟨hcloses, htotal⟩
    exact ⟨hcloses, htotal⟩
  · rintro ⟨hcloses, htotal⟩
    obtain ⟨hcloses, htotal⟩ := htokens.2 ⟨hcloses, htotal⟩
    exact ⟨hcloses, htotal⟩

end Calculator
