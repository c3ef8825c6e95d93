import Mathlib
import Calculator.Evaluation
import Calculator.Proofs.Acceptance
import Calculator.Proofs.LiteralText
import Calculator.Proofs.Spelling

/-!
# From infix text to the value

An expression is written in infix order with parentheses where precedence needs them and wherever
else one likes (`Written`), and a text spells the tokens with any gaps (`Token.Layout`). Every such
text is taken back to the expression, to its postfix order and to its value
(`Evaluation.ofText_written`).
-/

namespace Calculator

namespace Expr

/-- How tightly an expression holds together without parentheses: as its outermost operator, or, if
it is a literal, tighter than every operator. -/
def precedence : Expr → Nat
  | .literal _ => 3
  | .binary op _ _ => op.precedence

/-- The texts of an expression's literals. -/
def literals : Expr → List String
  | .literal text => [text]
  | .binary _ left right => left.literals ++ right.literals

/-- The value of an expression: a literal's own, and an operator's on the operands' values. -/
inductive HasValue : Expr → Binary64 → Prop
  | literal {text : String} {v : Binary64} : Literal.value text = .ok v →
      HasValue (.literal text) v
  | binary {op : Operator} {l r : Expr} {x y : Binary64} : HasValue l x → HasValue r y →
      HasValue (.binary op l r) (op.apply x y)

theorem HasValue.evaluate_eq {e : Expr} {v : Binary64} (h : HasValue e v) :
    e.evaluate = .ok v := by
  induction h with
  | literal h => exact h
  | binary _ _ ihl ihr => rw [evaluate, ihl, ihr]; rfl

theorem exists_hasValue {e : Expr} (h : ∀ text ∈ e.literals, ∃ v, Literal.value text = .ok v) :
    ∃ v, HasValue e v := by
  induction e with
  | literal text =>
    obtain ⟨v, hv⟩ := h text (.head _)
    exact ⟨v, .literal hv⟩
  | binary op left right ihl ihr =>
    obtain ⟨x, hx⟩ := ihl fun text ht => h text (List.mem_append_left _ ht)
    obtain ⟨y, hy⟩ := ihr fun text ht => h text (List.mem_append_right _ ht)
    exact ⟨_, .binary hx hy⟩

end Expr

/-! ## Infix order -/

/-- `Written grouped e tokens`: the tokens are `e` in infix order, with at least one pair of
parentheses around it if `grouped`. A left operand needs a pair if it binds looser than the
operator, a right operand if it does not bind tighter. -/
inductive Written : Bool → Expr → List Token → Prop
  | literal (text : String) : Written false (.literal text) [.number text]
  | binary {op : Operator} {l r : Expr} {gl gr : Bool} {t u : List Token} :
      Written gl l t → Written gr r u → (l.precedence < op.precedence → gl = true) →
      (r.precedence ≤ op.precedence → gr = true) →
      Written false (.binary op l r) (t ++ .operator op :: u)
  | group {grouped : Bool} {e : Expr} {t : List Token} : Written grouped e t →
      Written true e (.paren .left :: (t ++ [.paren .right]))

namespace Written

variable {grouped : Bool} {e : Expr} {tokens : List Token}

/-- What binds tightly enough, or is in parentheses, is derived at the inner levels too. -/
theorem derives (h : Written grouped e tokens) :
    Derives .sum tokens e ∧ ((grouped = false → 2 ≤ e.precedence) → Derives .term tokens e) ∧
      ((grouped = false → 3 ≤ e.precedence) → Derives .factor tokens e) := by
  induction h with
  | literal text =>
    have hfactor := Derives.number text
    exact ⟨.term (.factor hfactor), fun _ => .factor hfactor, fun _ => hfactor⟩
  | group _ ih =>
    have hfactor := Derives.group ih.1
    exact ⟨.term (.factor hfactor), fun _ => .factor hfactor, fun _ => hfactor⟩
  | @binary op l r gl gr t u _ _ hl hr ihl ihr =>
    have hop : (op = .add ∨ op = .sub) ∧ op.precedence = 1 ∨
        (op = .mul ∨ op = .div) ∧ op.precedence = 2 := by
      cases op <;> simp [Operator.precedence]
    -- Without parentheses the left operand is of the operator's level, the right one of the next.
    rcases hop with ⟨hop, hprec⟩ | ⟨hop, hprec⟩
    · rw [hprec] at hr
      have hright := ihr.2.1 fun hg => Nat.lt_of_not_le fun hle => by simp [hr hle] at hg
      refine ⟨.sum hop ihl.1 hright, fun h => ?_, fun h => ?_⟩
      · exact absurd (h rfl) (by rw [Expr.precedence]; omega)
      · exact absurd (h rfl) (by rw [Expr.precedence]; omega)
    · rw [hprec] at hl hr
      have hleft := ihl.2.1 fun hg => Nat.le_of_not_lt fun hlt => by simp [hl hlt] at hg
      have hright := ihr.2.2 fun hg => Nat.lt_of_not_le fun hle => by simp [hr hle] at hg
      have hterm := Derives.product hop hleft hright
      refine ⟨.term hterm, fun _ => hterm, fun h => ?_⟩
      exact absurd (h rfl) (by rw [Expr.precedence]; omega)

theorem mem_literals (h : Written grouped e tokens) {text : String}
    (ht : .number text ∈ tokens) : text ∈ e.literals := by
  induction h with
  | literal text => simpa [Expr.literals, eq_comm] using ht
  | group _ ih => exact ih (by simpa using ht)
  | binary _ _ _ _ ihl ihr =>
    rcases List.mem_append.1 ht with ht | ht
    · exact List.mem_append_left _ (ihl ht)
    · exact List.mem_append_right _ (ihr (by simpa using ht))

end Written

/-! ## All stages -/

theorem Evaluation.ofText_eq_ok {text : String} {t : Tree} {v : Binary64}
    (htree : Tree.ofPostfix (Token.toPostfix (Token.tokenize text)) = .ok t)
    (hvalue : t.evaluate = .ok v) :
    ofText text =
      .ok ⟨Token.tokenize text, Token.toPostfix (Token.tokenize text), t, v⟩ := by
  rw [ofText_of_tree htree, hvalue]
  rfl

/-- A text that spells an expression is taken to exactly this expression, its postfix order and its
value. -/
theorem Evaluation.ofText_written {e : Expr} {grouped : Bool} {tokens : List Token}
    {text : String} (hliterals : ∀ s ∈ e.literals, ∃ v, Literal.value s = .ok v)
    (hwritten : Written grouped e tokens) (hlayout : Token.Layout tokens text.toList) :
    ∃ tree v, Evaluation.ofText text = .ok ⟨tokens, e.postorder, tree, v⟩ ∧ tree.expr = e ∧
      e.HasValue v := by
  have hderives := hwritten.derives.1
  have htokens : Token.tokenize text = tokens := by
    have halt := hderives.alternates (Token.alternates_nil.2 rfl)
    rw [List.append_nil] at halt
    refine hlayout.scan_eq halt fun s hs => ?_
    exact (Literal.value_eq_ok_iff.1 (hliterals s (hwritten.mem_literals hs))).isNumeral
  obtain ⟨tree, htree, rfl⟩ := hderives.built
  obtain ⟨v, hv⟩ := Expr.exists_hasValue hliterals
  refine ⟨tree, v, ?_, rfl, hv⟩
  have hvalue : tree.evaluate = .ok v := tree.evaluate_eq.trans hv.evaluate_eq
  rw [ofText_eq_ok (htokens.symm ▸ htree) hvalue, htokens, hderives.toPostfix_eq]

/-- `2x- (-.5+1)*3`: a sign, a subtraction, a needed pair of parentheses and two gaps. -/
theorem Evaluation.ofText_written_nested :
    let sum := Expr.binary .add (.literal "-.5") (.literal "1")
    let e := Expr.binary .sub (.literal "2") (.binary .mul sum (.literal "3"))
    let tokens : List Token := [.number "2", .operator .sub, .paren .left, .number "-.5",
      .operator .add, .number "1", .paren .right, .operator .mul, .number "3"]
    (∀ s ∈ e.literals, ∃ v, Literal.value s = .ok v) ∧ Written false e tokens ∧
      Token.Layout tokens "2x- (-.5+1)*3".toList ∧
      ∃ tree v, Evaluation.ofText "2x- (-.5+1)*3" = .ok ⟨tokens, e.postorder, tree, v⟩ ∧
        tree.expr = e ∧ e.HasValue v := by
  intro sum e tokens
  have hliterals : ∀ s ∈ e.literals, ∃ v, Literal.value s = .ok v := by
    intro s hs
    have hs : s = "2" ∨ s = "-.5" ∨ s = "1" ∨ s = "3" := by simpa [e, sum, Expr.literals] using hs
    rcases hs with rfl | rfl | rfl | rfl <;> exact ⟨_, rfl⟩
  have hsum : Written false sum [.number "-.5", .operator .add, .number "1"] :=
    .binary (.literal _) (.literal _) (by decide) (by decide)
  have hproduct : Written false (.binary .mul sum (.literal "3")) (tokens.drop 2) :=
    .binary (.group hsum) (.literal _) (by decide) (by decide)
  have hwritten : Written false e tokens :=
    .binary (.literal _) hproduct (by decide) (by decide)
  have hlayout : Token.Layout tokens "2x- (-.5+1)*3".toList :=
    .cons [] nofun <| .cons ['x'] (List.forall_mem_singleton.2 rfl) <|
      .cons [' '] (List.forall_mem_singleton.2 rfl) <| .cons [] nofun <| .cons [] nofun <|
      .cons [] nofun <| .cons [] nofun <| .cons [] nofun <| .cons [] nofun <| .nil [] nofun
  exact ⟨hliterals, hwritten, hlayout, Evaluation.ofText_written hliterals hwritten hlayout⟩

end Calculator
