import Mathlib
import Calculator.Proofs.Grammar
import Calculator.Token.Lexer

/-!
# Alternation of values and operators

Read from the left, a token list wants a value or an operator at each place. `Token.crowded` counts
the values that begin where none is wanted, `Token.lacking` the operators, `)` and ends that stand
where a value is. The two counts are tied to the numbers of operands and operators
(`Token.countP_add_lacking`); both are zero on the sentences of the grammar
(`Derives.alternates`), and balanced parentheses with both counts zero make a sentence
(`Token.sentence_of_alternates`).
-/

namespace Calculator

namespace Token

/-- Whether a value begins with the token. -/
def beginsValue : Token → Bool
  | .number _ | .paren .left => true
  | .operator _ | .paren .right => false

/-- How many values begin where no value is wanted. -/
def crowded (operandWanted : Bool) : List Token → Nat
  | [] => 0
  | token :: rest =>
    (token.beginsValue && !operandWanted).toNat + crowded token.wantsOperand rest

/-- How many operators, `)` and ends stand where a value is wanted. -/
def lacking (operandWanted : Bool) : List Token → Nat
  | [] => operandWanted.toNat
  | token :: rest =>
    (!token.beginsValue && operandWanted).toNat + lacking token.wantsOperand rest

/-- Values and operators alternate, and a value comes last. -/
def Alternates (operandWanted : Bool) (tokens : List Token) : Prop :=
  crowded operandWanted tokens = 0 ∧ lacking operandWanted tokens = 0

/-- Operands outnumber operators by the values that are crowded, less those that are lacking. -/
theorem countP_add_lacking (operandWanted : Bool) (tokens : List Token) :
    tokens.countP isNumber + lacking operandWanted tokens =
      tokens.countP (·.operator?.isSome) + crowded operandWanted tokens +
        operandWanted.toNat := by
  induction tokens generalizing operandWanted with
  | nil => simp [crowded, lacking]
  | cons token rest ih =>
    have h := ih token.wantsOperand
    simp only [List.countP_cons, crowded, lacking]
    rcases token with text | op | side | side <;> cases operandWanted <;>
      simp [isNumber, operator?, beginsValue, wantsOperand] at h ⊢ <;> omega

theorem alternates_nil {wanted : Bool} : Alternates wanted [] ↔ wanted = false := by
  cases wanted <;> simp [Alternates, crowded, lacking]

theorem alternates_cons {wanted : Bool} {token : Token} {rest : List Token} :
    Alternates wanted (token :: rest) ↔
      token.beginsValue = wanted ∧ Alternates token.wantsOperand rest := by
  simp only [Alternates, crowded, lacking]
  cases wanted <;> cases token.beginsValue <;> simp

end Token

open Token

/-- A sentence stands where a value is wanted, and no value is wanted after it. -/
theorem Derives.alternates {level : Level} {tokens : List Token} {e : Expr}
    (h : Derives level tokens e) {rest : List Token} (hrest : Alternates false rest) :
    Alternates true (tokens ++ rest) := by
  induction h generalizing rest with
  | term _ ih => exact ih hrest
  | factor _ ih => exact ih hrest
  | sum _ _ _ ihl ihr | product _ _ _ ihl ihr =>
    rw [List.append_assoc]
    exact ihl (alternates_cons.2 ⟨rfl, ihr hrest⟩)
  | number text => exact alternates_cons.2 ⟨rfl, hrest⟩
  | group _ ih =>
    rw [List.cons_append, List.append_assoc]
    exact alternates_cons.2 ⟨rfl, ih (alternates_cons.2 ⟨rfl, hrest⟩)⟩

namespace Token

/-! ## Balanced parentheses -/

/-- No prefix closes more groups than it opens, and all groups are closed. -/
structure Balanced (tokens : List Token) : Prop where
  prefix_le : ∀ u, u <+: tokens → u.count (.paren .right) ≤ u.count (.paren .left)
  total : tokens.count (.paren .left) = tokens.count (.paren .right)

/-- The tokens close `depth` groups that are open before them and all that they open. -/
def Closes : Nat → List Token → Prop
  | depth, [] => depth = 0
  | depth, .paren .left :: rest => Closes (depth + 1) rest
  | 0, .paren .right :: _ => False
  | depth + 1, .paren .right :: rest => Closes depth rest
  | depth, .number _ :: rest => Closes depth rest
  | depth, .operator _ :: rest => Closes depth rest

theorem closes_right {depth : Nat} {rest : List Token} :
    Closes depth (.paren .right :: rest) ↔ 0 < depth ∧ Closes (depth - 1) rest := by
  cases depth <;> simp [Closes]

theorem closes_iff {tokens : List Token} {depth : Nat} :
    Closes depth tokens ↔
      (∀ u, u <+: tokens → u.count (.paren .right) ≤ depth + u.count (.paren .left)) ∧
        depth + tokens.count (.paren .left) = tokens.count (.paren .right) := by
  induction tokens generalizing depth with
  | nil => simp [Closes]
  | cons token rest ih =>
    have hcons : (∀ u, u <+: token :: rest →
        u.count (.paren .right) ≤ depth + u.count (.paren .left)) ↔
        ∀ u, u <+: rest →
          (token :: u).count (.paren .right) ≤ depth + (token :: u).count (.paren .left) := by
      refine ⟨fun h u hu => h _ (List.cons_prefix_cons.2 ⟨rfl, hu⟩), fun h u hu => ?_⟩
      rcases List.prefix_cons_iff.1 hu with rfl | ⟨v, rfl, hv⟩
      · exact Nat.zero_le _
      · exact h v hv
    rw [hcons]
    rcases token with text | op | side | side
    · simp only [Closes, ih, List.count_cons]
      simp
    · simp only [Closes, ih, List.count_cons]
      simp
    · simp only [Closes, ih, List.count_cons]
      simp [Nat.add_assoc, Nat.add_comm 1]
    · match depth with
      | 0 =>
        simp only [Closes, List.count_cons, false_iff]
        exact fun h => by simpa using h.1 [] List.nil_prefix
      | depth + 1 =>
        simp only [Closes, ih, List.count_cons]
        simp [Nat.add_right_comm depth 1]

theorem balanced_iff_closes {tokens : List Token} : Balanced tokens ↔ Closes 0 tokens := by
  rw [closes_iff]
  simp only [Nat.zero_add]
  exact ⟨fun h => ⟨h.prefix_le, h.total⟩, fun h => ⟨h.1, h.2⟩⟩

/-! ## From alternation to a sentence -/

/-- The grammar derives the tokens. -/
def Sentence (tokens : List Token) : Prop := ∃ e, Derives .sum tokens e

/-- Whatever factor comes next, the tokens and it are a sentence. -/
def AwaitsFactor (tokens : List Token) : Prop :=
  ∀ u e, Derives .factor u e → Sentence (tokens ++ u)

theorem awaitsFactor_nil : AwaitsFactor [] :=
  fun _ e h => ⟨e, .term (.factor h)⟩

/-- An operator after a sentence waits for a factor: a sum for its last operand, and a product for
its own, which replaces the last term of the sentence. -/
theorem Sentence.awaitsFactor {tokens : List Token} (h : Sentence tokens) (op : Operator) :
    AwaitsFactor (tokens ++ [.operator op]) := by
  intro u r hu
  obtain ⟨l, hl⟩ := h
  rw [List.append_assoc, List.singleton_append]
  have hop : (op = .add ∨ op = .sub) ∨ (op = .mul ∨ op = .div) := by cases op <;> simp
  rcases hop with hop | hop
  · exact ⟨_, .sum hop hl (.factor hu)⟩
  · cases hl with
    | term hl => exact ⟨_, .term (.product hop hl hu)⟩
    | sum hop' hl hr =>
      rw [List.append_assoc, List.cons_append]
      exact ⟨_, .sum hop' hl (.product hop hr hu)⟩

/-- The open groups around tokens, the innermost first, each with what stands before it in the group
around it. -/
def inGroups (frames : List (List Token)) (tokens : List Token) : List Token :=
  frames.foldl (fun inner frame => frame ++ .paren .left :: inner) tokens

/-- One token after the other, what has been read of the innermost group is a sentence where an
operator is wanted and awaits a factor where a value is; each open group is such a factor for the
group around it. -/
theorem sentence_inGroups {tokens : List Token} {frames : List (List Token)} {read : List Token}
    {wanted : Bool} (hframes : ∀ frame ∈ frames, AwaitsFactor frame)
    (hread : if wanted then AwaitsFactor read else Sentence read)
    (hcloses : Closes frames.length tokens) (halt : Alternates wanted tokens) :
    Sentence (inGroups frames (read ++ tokens)) := by
  induction tokens generalizing frames read wanted with
  | nil =>
    obtain rfl := alternates_nil.1 halt
    obtain rfl := List.eq_nil_of_length_eq_zero hcloses
    rw [List.append_nil]
    exact hread
  | cons token rest ih =>
    obtain ⟨rfl, hrest⟩ := alternates_cons.1 halt
    rw [← List.singleton_append, ← List.append_assoc]
    rcases token with text | op | side | side
    · exact @ih frames (read ++ [.number text]) false hframes (hread _ _ (.number text)) hcloses
        hrest
    · have h : AwaitsFactor (read ++ [.operator op]) := Sentence.awaitsFactor hread op
      exact @ih frames _ true hframes h hcloses hrest
    · have h := @ih (read :: frames) [] true (by simpa using ⟨hread, hframes⟩) awaitsFactor_nil
        hcloses hrest
      simpa [inGroups] using h
    · cases frames with
      | nil => exact hcloses.elim
      | cons frame frames =>
        -- The group that `)` closes is the factor that the tokens before its `(` await.
        obtain ⟨e, he⟩ : Sentence read := hread
        have h := @ih frames (frame ++ .paren .left :: (read ++ [.paren .right])) false
          (fun f hf => hframes f (.tail _ hf)) (hframes frame (.head _) _ _ (.group he)) hcloses
          hrest
        simpa [inGroups] using h

/-- Alternating values and operators in balanced parentheses are a sentence. -/
theorem sentence_of_alternates {tokens : List Token} (hb : Balanced tokens)
    (ha : Alternates true tokens) : Sentence tokens :=
  @sentence_inGroups tokens [] [] true nofun awaitsFactor_nil (balanced_iff_closes.1 hb) ha

end Token

end Calculator
