import Mathlib
import Calculator.Proofs.Alternation
import Calculator.Proofs.Building
import Calculator.Proofs.Counting

/-!
# Which token lists are accepted

A sentence of the grammar is converted and built (`Derives.built`). The converse does not hold: the
builder counts values and operators after they have been reordered, so an operator may stand before
or after both of its operands (`built_trailing_operator`). `sentence_iff_built` says how far the
grammar is decided: with balanced parentheses, a list that is built is a sentence exactly if no
value begins right after another, and where values do, as many values are missing elsewhere.
-/

namespace Calculator

namespace Derives

/-- A sentence is built to its expression. -/
theorem built {level : Level} {tokens : List Token} {e : Expr} (h : Derives level tokens e) :
    ∃ t, Tree.ofPostfix (Token.toPostfix tokens) = .ok t ∧ t.expr = e :=
  Tree.ofPostfix_eq_ok_iff.2 h.toPostfix_eq

end Derives

namespace Token

/-- A list that is built has one operand more than it has operators. -/
theorem countP_of_built {tokens : List Token} {t : Tree}
    (h : Tree.ofPostfix (toPostfix tokens) = .ok t) :
    tokens.countP isNumber = tokens.countP (·.operator?.isSome) + 1 := by
  have hcount := Tree.ofPostfix_accounts (toPostfix tokens)
  rw [h, Tree.Accounts, operands_toPostfix, operators_toPostfix] at hcount
  exact hcount.1

theorem crowded_eq_lacking_of_built {tokens : List Token} {t : Tree}
    (h : Tree.ofPostfix (toPostfix tokens) = .ok t) :
    crowded true tokens = lacking true tokens := by
  have hcount := countP_of_built h
  have hplaces := countP_add_lacking true tokens
  rw [Bool.toNat_true] at hplaces
  omega

/-- With balanced parentheses, the sentences are the lists that are built and in which no value
begins right after another; in every list that is built, values that do are as many as operators,
`)` and ends where a value is wanted. -/
theorem sentence_iff_built {tokens : List Token} (hb : Balanced tokens) :
    (Sentence tokens ↔
      (∃ t, Tree.ofPostfix (toPostfix tokens) = .ok t) ∧ crowded true tokens = 0) ∧
    ((∃ t, Tree.ofPostfix (toPostfix tokens) = .ok t) →
      crowded true tokens = lacking true tokens) := by
  refine ⟨⟨?_, ?_⟩, fun ⟨t, ht⟩ => crowded_eq_lacking_of_built ht⟩
  · rintro ⟨e, he⟩
    obtain ⟨t, ht, -⟩ := he.built
    have halt := he.alternates (alternates_nil.2 rfl)
    rw [List.append_nil] at halt
    exact ⟨⟨t, ht⟩, halt.1⟩
  · rintro ⟨⟨t, ht⟩, hcrowded⟩
    have hlacking := crowded_eq_lacking_of_built ht
    exact sentence_of_alternates hb ⟨hcrowded, hlacking ▸ hcrowded⟩

/-- `(1+2)*3`. -/
theorem sentence_iff_built_group :
    let tokens := [.paren .left, .number "1", .operator .add, .number "2", .paren .right,
      .operator .mul, .number "3"]
    Balanced tokens ∧
      (Sentence tokens ↔
        (∃ t, Tree.ofPostfix (toPostfix tokens) = .ok t) ∧ crowded true tokens = 0) ∧
      ((∃ t, Tree.ofPostfix (toPostfix tokens) = .ok t) →
        crowded true tokens = lacking true tokens) := by
  intro tokens
  have hb : Balanced tokens := balanced_iff_closes.2 rfl
  exact ⟨hb, sentence_iff_built hb⟩

/-- `1 2 +` is built as `1 + 2` although its operator stands behind both operands. -/
theorem built_trailing_operator :
    let tokens := [.number "1", .number "2", .operator .add]
    Balanced tokens ∧ (∃ t, Tree.ofPostfix (toPostfix tokens) = .ok t) ∧ ¬ Sentence tokens := by
  refine ⟨balanced_iff_closes.2 rfl, ⟨_, rfl⟩, fun ⟨e, he⟩ => ?_⟩
  have halt := he.alternates (alternates_nil.2 rfl)
  exact absurd halt.1 (by decide)

end Token

end Calculator
