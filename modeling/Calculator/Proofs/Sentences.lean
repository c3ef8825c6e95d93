import Mathlib
import Calculator.Proofs.InfixText

/-!
# Sentences and their expressions

A postfix order belongs to one expression (`Expr.postorder_injective`), so the grammar gives a token
list at most one, whatever level derives it (`Derives.expr_unique`). The sentences of an expression
are the ways to write it in infix order (`derives_iff_written`). An operator of the level's
precedence takes all that stands to its left as its left operand (`Derives.operator`), so operators
of one precedence in a row group to the left (`Derives.chain`). `Derives.parsed` says what the
conversion and the builder make of a sentence.
-/

namespace Calculator

/-! ## One expression for each sentence -/

namespace Expr

/-- The builder reads the expression back from its postfix order. -/
theorem postorder_injective : Function.Injective postorder := by
  intro e e' h
  obtain ⟨t, ht, rfl⟩ := Tree.ofPostfix_eq_ok_iff.2 (Eq.refl e.postorder)
  obtain ⟨t', ht', rfl⟩ := Tree.ofPostfix_eq_ok_iff.2 (Eq.refl e'.postorder)
  rw [← h, ht] at ht'
  rw [Except.ok.inj ht']

end Expr

theorem Derives.expr_unique {level level' : Level} {tokens : List Token} {e e' : Expr}
    (h : Derives level tokens e) (h' : Derives level' tokens e') : e' = e :=
  Expr.postorder_injective (h'.toPostfix_eq.symm.trans h.toPostfix_eq)

/-! ## Sentences are what is written -/

/-- Operands that bind tightly enough where they have no parentheses make a writing of an
operator. -/
theorem Written.binary_of_le {op : Operator} {l r : Expr} {gl gr : Bool} {t u : List Token}
    (hl : Written gl l t) (hr : Written gr r u) (hlp : gl = false → op.precedence ≤ l.precedence)
    (hrp : gr = false → op.precedence < r.precedence) :
    Written false (.binary op l r) (t ++ .operator op :: u) := by
  refine .binary hl hr (fun hlt => ?_) fun hle => ?_
  · exact Bool.eq_true_of_not_eq_false fun hg => absurd (hlp hg) (Nat.not_le.2 hlt)
  · exact Bool.eq_true_of_not_eq_false fun hg => absurd (hrp hg) (Nat.not_lt.2 hle)

/-- What a level derives is written in infix order, and without a pair of parentheses around it only
if it binds as tightly as the level asks. -/
theorem Derives.written {level : Level} {tokens : List Token} {e : Expr}
    (h : Derives level tokens e) :
    ∃ grouped, Written grouped e tokens ∧ (grouped = false → level.floor ≤ e.precedence) := by
  induction h with
  | term _ ih | factor _ ih =>
    obtain ⟨grouped, hwritten, hfloor⟩ := ih
    exact ⟨grouped, hwritten, fun hg => Nat.le_of_succ_le (hfloor hg)⟩
  | number text => exact ⟨false, .literal text, fun _ => Nat.le_refl _⟩
  | group _ ih =>
    obtain ⟨grouped, hwritten, -⟩ := ih
    exact ⟨true, .group hwritten, nofun⟩
  | sum hop _ _ ihl ihr | product hop _ _ ihl ihr =>
    obtain ⟨gl, hl, hfloorl⟩ := ihl
    obtain ⟨gr, hr, hfloorr⟩ := ihr
    rcases hop with rfl | rfl
    · exact ⟨false, hl.binary_of_le hr hfloorl hfloorr, fun _ => Nat.le_refl _⟩
    · exact ⟨false, hl.binary_of_le hr hfloorl hfloorr, fun _ => Nat.le_refl _⟩

/-- The sentences of an expression are exactly the ways to write it with at least the parentheses
that precedence needs. -/
theorem derives_iff_written {tokens : List Token} {e : Expr} :
    Derives .sum tokens e ↔ ∃ grouped, Written grouped e tokens := by
  constructor
  · intro h
    obtain ⟨grouped, hwritten, -⟩ := h.written
    exact ⟨grouped, hwritten⟩
  · rintro ⟨grouped, hwritten⟩
    exact hwritten.derives.1

/-! ## Chains of one precedence -/

/-- The level of what stands to the right of an operator of a level. -/
def Level.operand : Level → Level
  | .sum => .term
  | .term | .factor => .factor

/-- An operator with its right operand, as tokens and as an expression. -/
structure Link where
  op : Operator
  tokens : List Token
  expr : Expr

/-- The link continues a sentence of the level: its operator has the level's precedence. -/
def Link.Continues (link : Link) (level : Level) : Prop :=
  link.op.precedence = level.floor ∧ Derives level.operand link.tokens link.expr

/-- The tokens of a chain in infix order. -/
def Token.chain (first : List Token) (links : List Link) : List Token :=
  first ++ links.flatMap fun link => .operator link.op :: link.tokens

/-- The chain grouped to the left. -/
def Expr.chain (first : Expr) (links : List Link) : Expr :=
  links.foldl (fun left link => .binary link.op left link.expr) first

theorem Operator.precedence_eq_one_iff {op : Operator} :
    op.precedence = 1 ↔ op = .add ∨ op = .sub := by
  cases op <;> decide

theorem Operator.precedence_eq_two_iff {op : Operator} :
    op.precedence = 2 ↔ op = .mul ∨ op = .div := by
  cases op <;> decide

namespace Derives

variable {level : Level} {tokens : List Token} {e : Expr}

theorem operator {link : Link} (h : Derives level tokens e) (hlink : link.Continues level) :
    Derives level (tokens ++ .operator link.op :: link.tokens) (.binary link.op e link.expr) := by
  obtain ⟨op, operand, r⟩ := link
  obtain ⟨hprec, hr⟩ := hlink
  cases level with
  | sum => exact .sum (Operator.precedence_eq_one_iff.1 hprec) h hr
  | term => exact .product (Operator.precedence_eq_two_iff.1 hprec) h hr
  | factor => cases op <;> cases hprec

theorem chain (h : Derives level tokens e) {links : List Link}
    (hlinks : ∀ link ∈ links, link.Continues level) :
    Derives level (Token.chain tokens links) (Expr.chain e links) := by
  induction links generalizing tokens e with
  | nil =>
    rw [Token.chain, List.flatMap_nil, List.append_nil]
    exact h
  | cons link rest ih =>
    obtain ⟨hlink, hrest⟩ := List.forall_mem_cons.1 hlinks
    have hchain := ih (h.operator hlink) hrest
    rw [Token.chain, List.append_assoc] at hchain
    rw [Token.chain, List.flatMap_cons]
    exact hchain

/-- A sentence is converted to its expression's postfix order and built to a tree for its
expression, and no other expression can be derived from its tokens. It is a way to write the
expression with at least the parentheses that precedence needs; every other way, whatever redundant
parentheses it has, has the same postfix order and the same tree. Operators of the level's
precedence that follow, each with its right operand, group to the left. -/
theorem parsed (h : Derives level tokens e) :
    Token.toPostfix tokens = e.postorder ∧
    (∃ t, Tree.ofPostfix (Token.toPostfix tokens) = .ok t ∧ t.expr = e) ∧
    (∀ level' e', Derives level' tokens e' → e' = e) ∧
    (∃ grouped, Written grouped e tokens) ∧
    (∀ grouped tokens', Written grouped e tokens' →
      Token.toPostfix tokens' = Token.toPostfix tokens ∧
        Tree.ofPostfix (Token.toPostfix tokens') = Tree.ofPostfix (Token.toPostfix tokens)) ∧
    ∀ links : List Link, (∀ link ∈ links, link.Continues level) →
      Token.toPostfix (Token.chain tokens links) = (Expr.chain e links).postorder ∧
        ∃ t, Tree.ofPostfix (Token.toPostfix (Token.chain tokens links)) = .ok t ∧
          t.expr = Expr.chain e links := by
  obtain ⟨grouped, hwritten, -⟩ := h.written
  refine ⟨h.toPostfix_eq, h.built, fun _ _ h' => h.expr_unique h', ⟨grouped, hwritten⟩,
    fun _ tokens' h' => ?_,
    fun links hlinks => ⟨(h.chain hlinks).toPostfix_eq, (h.chain hlinks).built⟩⟩
  have heq : Token.toPostfix tokens' = Token.toPostfix tokens :=
    h'.derives.1.toPostfix_eq.trans h.toPostfix_eq.symm
  exact ⟨heq, congrArg _ heq⟩

/-- `6/3`, also as `((6)/3)`, and the chain `6/3/2*(1-5)`. -/
theorem parsed_quotient :
    let tokens := [.number "6", .operator .div, .number "3"]
    let e : Expr := .binary .div (.literal "6") (.literal "3")
    let enclosed := [.paren .left, .paren .left, .number "6", .paren .right, .operator .div,
      .number "3", .paren .right]
    let difference := [.paren .left, .number "1", .operator .sub, .number "5", .paren .right]
    let links : List Link := [⟨.div, [.number "2"], .literal "2"⟩,
      ⟨.mul, difference, .binary .sub (.literal "1") (.literal "5")⟩]
    Derives .term tokens e ∧ Token.toPostfix tokens = e.postorder ∧
    (∃ t, Tree.ofPostfix (Token.toPostfix tokens) = .ok t ∧ t.expr = e) ∧
    Written true e enclosed ∧
    (Token.toPostfix enclosed = Token.toPostfix tokens ∧
      Tree.ofPostfix (Token.toPostfix enclosed) = Tree.ofPostfix (Token.toPostfix tokens)) ∧
    (∀ link ∈ links, link.Continues .term) ∧
    (Token.toPostfix (Token.chain tokens links) = (Expr.chain e links).postorder ∧
      ∃ t, Tree.ofPostfix (Token.toPostfix (Token.chain tokens links)) = .ok t ∧
        t.expr = Expr.chain e links) := by
  intro tokens e enclosed difference links
  have quotient : Derives .term tokens e :=
    .product (.inr rfl) (.factor (.number "6")) (.number "3")
  have hwritten : Written true e enclosed :=
    .group (.binary (.group (.literal "6")) (.literal "3") (fun _ => rfl) (by decide))
  have hlinks : ∀ link ∈ links, link.Continues .term := by
    intro link hlink
    simp only [links, List.mem_cons, List.not_mem_nil, or_false] at hlink
    rcases hlink with rfl | rfl
    · exact ⟨rfl, .number "2"⟩
    · exact ⟨rfl, .group (.sum (.inr rfl) (.term (.factor (.number "1"))) (.factor (.number "5")))⟩
  obtain ⟨horder, hbuilt, -, -, hsame, hchain⟩ := quotient.parsed
  exact ⟨quotient, horder, hbuilt, hwritten, hsame true enclosed hwritten, hlinks,
    hchain links hlinks⟩

end Derives

end Calculator
