import Mathlib
import Calculator.Evaluation
import Calculator.Proofs.Building
import Calculator.Proofs.Joining
import Calculator.Proofs.OpenGroups

/-!
# Groups in texts

What the conversion does with groups, said of texts. Any number of `(` before a text and of `)` after
it leave its postfix order, tree and value as they are, so an unbalanced text means what it means with
the missing parentheses at its outer ends (`Evaluation.outer_parentheses`). Two balanced texts in
groups with an operator between them mean the operator on what each of them means by itself, whatever
stands in them (`Evaluation.of_groups`).
-/

namespace Calculator

namespace Token

/-! ## Missing parentheses -/

theorem closes_replicate_left (i : Nat) (depth : Nat) (tokens : List Token) :
    Closes depth (List.replicate i (.paren .left) ++ tokens) ↔ Closes (depth + i) tokens := by
  induction i generalizing depth with
  | zero => rfl
  | succ i ih =>
    rw [List.replicate_succ, List.cons_append, Closes, ih, Nat.add_right_comm, Nat.add_assoc]

/-- As many `(` before tokens as they have `)`, and as many `)` after them as they have `(`, make them
balanced. -/
theorem balanced_enclosed (tokens : List Token) :
    Balanced (List.replicate (tokens.count (.paren .right)) (.paren .left) ++ tokens ++
      List.replicate (tokens.count (.paren .left)) (.paren .right)) := by
  rw [balanced_iff_closes, List.append_assoc, closes_replicate_left, closes_iff, Nat.zero_add]
  refine ⟨fun u hu => ?_, ?_⟩
  · rcases List.prefix_or_prefix_of_prefix hu (List.prefix_append tokens _) with h | ⟨v, rfl⟩
    · have hle := h.sublist.count_le (.paren .right)
      omega
    · have hv := ((List.prefix_append_right_inj tokens).1 hu).sublist.count_le (.paren .right)
      rw [List.count_replicate_self] at hv
      rw [List.count_append, List.count_append]
      omega
  · have hzero : (List.replicate (tokens.count (.paren .left)) (paren .right)).count (.paren .left) =
        0 :=
      List.count_eq_zero.2 fun h => nomatch List.eq_of_mem_replicate h
    rw [List.count_append, List.count_append, List.count_replicate_self, hzero]
    omega

theorem balanced_enclose (source : String) :
    ∃ i j, Text.Balanced (enclose i j source) := by
  have h := balanced_enclosed (tokenize source)
  rw [← tokenize_enclosed, balanced_tokenize_iff] at h
  exact ⟨_, _, h⟩

end Token

open Token (tokenize toPostfix enclose)

/-- Only the postfix order of a text's tokens counts for what it means. -/
theorem Evaluation.ofText_congr {source other : String}
    (h : toPostfix (tokenize source) = toPostfix (tokenize other)) :
    ofText source = (ofText other).map ({ · with tokens := tokenize source }) := by
  cases htree : Tree.ofPostfix (toPostfix (tokenize other)) with
  | error error =>
    rw [ofText_of_error htree, ofText_of_error (h ▸ htree)]
    rfl
  | ok t =>
    rw [ofText_of_tree htree, ofText_of_tree (h ▸ htree), h]
    cases t.evaluate <;> rfl

theorem evaluate_congr {source other : String}
    (h : toPostfix (tokenize source) = toPostfix (tokenize other)) :
    evaluate source = evaluate other := by
  rw [evaluate, Evaluation.ofText_congr h, evaluate]
  cases Evaluation.ofText other <;> rfl

/-- Parentheses before and after a token list, or before and after a text, change nothing but the
tokens, and some of them make the text balanced. -/
theorem Evaluation.outer_parentheses :
    (∀ (tokens : List Token) (i j : Nat),
      toPostfix (List.replicate i (.paren .left) ++ tokens ++ List.replicate j (.paren .right)) =
        toPostfix tokens) ∧
    (∀ (source : String) (i j : Nat),
      ofText (enclose i j source) =
        (ofText source).map fun e =>
          { e with
            tokens :=
              List.replicate i (.paren .left) ++ e.tokens ++ List.replicate j (.paren .right) }) ∧
    ∀ source, ∃ i j, Text.Balanced (enclose i j source) := by
  refine ⟨fun tokens i j => Postfix.toPostfix_enclosed i j tokens, fun source i j => ?_,
    Token.balanced_enclose⟩
  have htokens := Token.tokenize_enclosed i j source
  have hpostfix : toPostfix (tokenize (enclose i j source)) = toPostfix (tokenize source) := by
    rw [htokens, Postfix.toPostfix_enclosed]
  rw [ofText_congr hpostfix, htokens]
  cases htree : Tree.ofPostfix (toPostfix (tokenize source)) with
  | error error => rw [ofText_of_error htree]; rfl
  | ok t =>
    rw [ofText_of_tree htree]
    cases t.evaluate <;> rfl

/-! ## An operator between groups -/

theorem Token.tokenize_groups (op : Operator) (a b : String) :
    tokenize ("(" ++ a ++ ")" ++ op.text ++ "(" ++ b ++ ")") =
      .paren .left :: (tokenize a ++ [.paren .right]) ++
        .operator op :: .paren .left :: (tokenize b ++ [.paren .right]) := by
  have hb := scan_group true b.toList []
  have hop := @scan_operator op false ('(' :: (b.toList ++ [')'])) (fun _ h => nomatch h)
  have ha := scan_group true a.toList (op.symbol :: '(' :: (b.toList ++ [')']))
  rw [hop, hb, scan] at ha
  have hchars : ("(" ++ a ++ ")" ++ op.text ++ "(" ++ b ++ ")").toList =
      '(' :: (a.toList ++ ')' :: op.symbol :: '(' :: (b.toList ++ [')'])) := by
    simp [Operator.text, String.toList_append]
  rw [tokenize, hchars, ha]
  simp [tokenize]

theorem evaluate_of_tree {source : String} {t : Tree}
    (h : Tree.ofPostfix (toPostfix (tokenize source)) = .ok t) :
    evaluate source = t.expr.evaluate.mapError .literal := by
  rw [evaluate, Evaluation.ofText_of_tree h, Tree.evaluate_eq]
  cases t.expr.evaluate <;> rfl

/-- Two balanced texts that have trees, in groups with an operator between them, have the tree of the
operator over these trees and the value of the operator on their values; of two bad literals the
left one counts. A text in a group has the value that it has alone. -/
theorem Evaluation.of_groups :
    (∀ (op : Operator) (a b : String), Text.Balanced a → Text.Balanced b →
      (∀ error, ofText a ≠ .error (.structural error)) →
      (∀ error, ofText b ≠ .error (.structural error)) →
      (∃ ta tb t, Tree.ofPostfix (toPostfix (tokenize a)) = .ok ta ∧
        Tree.ofPostfix (toPostfix (tokenize b)) = .ok tb ∧
        Tree.ofPostfix (toPostfix (tokenize ("(" ++ a ++ ")" ++ op.text ++ "(" ++ b ++ ")"))) =
          .ok t ∧
        t.expr = .binary op ta.expr tb.expr) ∧
      evaluate ("(" ++ a ++ ")" ++ op.text ++ "(" ++ b ++ ")") = do
        let x ← evaluate a
        let y ← evaluate b
        return op.apply x y) ∧
    ∀ a : String, evaluate ("(" ++ a ++ ")") = evaluate a := by
  refine ⟨fun op a b hba hbb hsa hsb => ?_, fun a => ?_⟩
  · obtain ⟨ta, hta⟩ := exists_tree hsa
    obtain ⟨tb, htb⟩ := exists_tree hsb
    have ha : toPostfix (tokenize a) = ta.expr.postorder := Tree.ofPostfix_eq_ok_iff.1 ⟨ta, hta, rfl⟩
    have hb : toPostfix (tokenize b) = tb.expr.postorder := Tree.ofPostfix_eq_ok_iff.1 ⟨tb, htb, rfl⟩
    have hpostfix : toPostfix (tokenize ("(" ++ a ++ ")" ++ op.text ++ "(" ++ b ++ ")")) =
        (Expr.binary op ta.expr tb.expr).postorder := by
      rw [Token.tokenize_groups, Postfix.toPostfix_groups (Token.balanced_tokenize_iff.2 hba)
        (Token.balanced_tokenize_iff.2 hbb), ha, hb, Expr.postorder]
    obtain ⟨t, ht, hexpr⟩ := Tree.ofPostfix_eq_ok_iff.2 hpostfix
    refine ⟨⟨ta, tb, t, hta, htb, ht, hexpr⟩, ?_⟩
    rw [evaluate_of_tree ht, evaluate_of_tree hta, evaluate_of_tree htb, hexpr, Expr.evaluate,
      Operator.applyOutcomes]
    cases ta.expr.evaluate with
    | error error => rfl
    | ok x => cases tb.expr.evaluate <;> rfl
  · have hpostfix : toPostfix (tokenize ("(" ++ a ++ ")")) = toPostfix (tokenize a) := by
      rw [Token.tokenize_group]
      exact Postfix.toPostfix_enclosed 1 1 (tokenize a)
    exact evaluate_congr hpostfix

/-- `(1 2) +`, with the operator after both operands, times `x- 5 (.5)`, with the operator before
them. -/
theorem Evaluation.of_groups_misplaced :
    let a := "(1 2) +"
    let b := "x- 5 (.5)"
    Text.Balanced a ∧ Text.Balanced b ∧ (∀ error, ofText a ≠ .error (.structural error)) ∧
      (∀ error, ofText b ≠ .error (.structural error)) ∧
      (∃ ta tb t, Tree.ofPostfix (toPostfix (tokenize a)) = .ok ta ∧
        Tree.ofPostfix (toPostfix (tokenize b)) = .ok tb ∧
        Tree.ofPostfix
          (toPostfix (tokenize ("(" ++ a ++ ")" ++ Operator.mul.text ++ "(" ++ b ++ ")"))) = .ok t ∧
        t.expr = .binary .mul ta.expr tb.expr) ∧
      (evaluate ("(" ++ a ++ ")" ++ Operator.mul.text ++ "(" ++ b ++ ")") = do
        let x ← evaluate a
        let y ← evaluate b
        return Operator.mul.apply x y) := by
  intro a b
  have hba : Text.Balanced a := by decide +kernel
  have hbb : Text.Balanced b := by decide +kernel
  have hok : (ofText a).isOk = true ∧ (ofText b).isOk = true := by decide +kernel
  have hsa : ∀ error, ofText a ≠ .error (.structural error) := by
    intro error h
    rw [h] at hok
    cases hok.1
  have hsb : ∀ error, ofText b ≠ .error (.structural error) := by
    intro error h
    rw [h] at hok
    cases hok.2
  exact ⟨hba, hbb, hsa, hsb, of_groups.1 .mul a b hba hbb hsa hsb⟩

end Calculator
