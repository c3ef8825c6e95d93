import Mathlib
import Calculator.Proofs.Building
import Calculator.Proofs.WorkingStack

/-!
# Counting operands and operators

Each operand adds one subtree to those that wait and each operator takes one away
(`Builder.push_ok`), so the outcome of building is tied to how many operands and operators the list
has (`Tree.ofPostfix_accounts`). The conversion keeps these numbers.
-/

namespace Calculator

namespace Token

/-- How many operands there are. -/
def operands (tokens : List Token) : Nat := tokens.countP isNumber

/-- How many operators there are. -/
def operators (tokens : List Token) : Nat := tokens.countP (·.operator?.isSome)

theorem operands_cons (token : Token) (rest : List Token) :
    operands (token :: rest) = operands rest + token.isNumber.toNat := by
  rw [operands, operands, List.countP_cons]
  cases token <;> rfl

theorem operators_cons (token : Token) (rest : List Token) :
    operators (token :: rest) = operators rest + token.operator?.isSome.toNat := by
  rw [operators, operators, List.countP_cons]
  cases token <;> rfl

theorem operands_append (earlier later : List Token) :
    operands (earlier ++ later) = operands earlier + operands later :=
  List.countP_append

theorem operators_append (earlier later : List Token) :
    operators (earlier ++ later) = operators earlier + operators later :=
  List.countP_append

/-- What is no parenthesis is an operand or an operator. -/
theorem operands_add_operators (tokens : List Token) :
    operands tokens + operators tokens = (tokens.filter (!·.isParen)).length := by
  induction tokens with
  | nil => rfl
  | cons token rest ih =>
    rw [operands_cons, operators_cons]
    rcases token with text | op | side
    · rw [List.filter_cons_of_pos rfl, List.length_cons, ← ih]
      exact Nat.add_right_comm _ _ _
    · rw [List.filter_cons_of_pos rfl, List.length_cons, ← ih]
      rfl
    · rw [List.filter_cons_of_neg (by simp [isParen]), ← ih]
      rfl

/-! ## Conversion -/

theorem operands_toPostfix (tokens : List Token) : operands (toPostfix tokens) = operands tokens :=
  countP_toPostfix (fun _ => rfl) tokens

theorem operators_toPostfix (tokens : List Token) :
    operators (toPostfix tokens) = operators tokens :=
  countP_toPostfix (fun _ => rfl) tokens

theorem mem_of_mem_toPostfix {tokens : List Token} {token : Token} (h : token ∈ toPostfix tokens) :
    token ∈ tokens ∧ token.isParen = false := by
  have hmem := List.mem_filter.1 ((toPostfix_perm tokens).mem_iff.1 h)
  exact ⟨hmem.1, by simpa using hmem.2⟩

theorem length_toPostfix (tokens : List Token) :
    (toPostfix tokens).length = operands tokens + operators tokens := by
  rw [(toPostfix_perm tokens).length_eq, operands_add_operators]

end Token

open Token (operands operators)

/-! ## Building -/

namespace Builder

theorem push_ok {b b' : Builder} {token : Token} (h : b.push token = .ok b') :
    b'.arena.size = b.arena.size + 1 ∧ 0 < b'.waiting.length ∧
      b'.waiting.length + token.operator?.isSome.toNat =
        b.waiting.length + token.isNumber.toNat := by
  rcases token with text | op | side
  · obtain rfl := Except.ok.inj h
    exact ⟨Arena.size_addLiteral _ _, Nat.succ_pos _, rfl⟩
  · rw [push] at h
    split at h
    · rename_i right left rest hwaiting
      obtain rfl := Except.ok.inj h
      have hsize : (b.pushBinary op right left rest hwaiting).arena.size = b.arena.size + 1 := by
        simp [pushBinary]
      have hlength : b.waiting.length = rest.length + 2 := congrArg List.length hwaiting
      exact ⟨hsize, Nat.succ_pos _, hlength.symm⟩
    · cases h
  · cases h

theorem push_error {b : Builder} {token : Token} {error : StructuralError}
    (h : b.push token = .error error) :
    (∃ op, token = .operator op ∧ error = .missingOperand op b.waiting.length ∧
        b.waiting.length ≤ 1) ∨
      ∃ side, token = .paren side ∧ error = .unexpectedParen side := by
  rcases token with text | op | side
  · cases h
  · obtain ⟨arena, waiting, hlt⟩ := b
    rcases waiting with _ | ⟨right, _ | ⟨left, rest⟩⟩
    · exact .inl ⟨op, rfl, (Except.error.inj h).symm, Nat.zero_le _⟩
    · exact .inl ⟨op, rfl, (Except.error.inj h).symm, Nat.le_refl _⟩
    · cases h
  · obtain rfl := Except.error.inj h
    exact .inr ⟨side, rfl, rfl⟩

/-- All tokens are in the tree, and the subtrees that wait are as many more as there are more
operands than operators. -/
theorem foldlM_push_ok {b b' : Builder} {tokens : List Token}
    (h : tokens.foldlM push b = .ok b') :
    b'.arena.size = b.arena.size + tokens.length ∧
      (b'.waiting.length = 0 → tokens = []) ∧
      b'.waiting.length + operators tokens = b.waiting.length + operands tokens := by
  induction tokens generalizing b with
  | nil =>
    obtain rfl := Except.ok.inj h
    exact ⟨rfl, fun _ => rfl, rfl⟩
  | cons token rest ih =>
    obtain ⟨next, hnext, hrest⟩ := foldlM_cons_eq_ok_iff.1 h
    obtain ⟨hsize, hpos, hwaiting⟩ := push_ok hnext
    obtain ⟨hsize', hempty, hwaiting'⟩ := ih hrest
    rw [Token.operators_cons, Token.operands_cons, List.length_cons]
    refine ⟨by omega, fun hzero => ?_, by omega⟩
    -- Nothing can be left of a stack that is not empty without more tokens.
    obtain rfl := hempty hzero
    obtain rfl := Except.ok.inj hrest
    omega

/-- A token that cannot be built is reported. -/
theorem foldlM_push_error {b : Builder} {tokens : List Token} {error : StructuralError}
    (h : tokens.foldlM push b = .error error) :
    (∃ op available, .operator op ∈ tokens ∧ error = .missingOperand op available ∧
        available ≤ 1) ∨
      ∃ side, .paren side ∈ tokens ∧ error = .unexpectedParen side := by
  induction tokens generalizing b with
  | nil => cases h
  | cons token rest ih =>
    rcases foldlM_cons_eq_error_iff.1 h with herror | ⟨next, -, hrest⟩
    · rcases push_error herror with ⟨op, rfl, rfl, hle⟩ | ⟨side, rfl, rfl⟩
      · exact .inl ⟨op, _, .head _, rfl, hle⟩
      · exact .inr ⟨side, .head _, rfl⟩
    · rcases ih hrest with ⟨op, available, hmem, rfl, hle⟩ | ⟨side, hmem, rfl⟩
      · exact .inl ⟨op, available, .tail _ hmem, rfl, hle⟩
      · exact .inr ⟨side, .tail _ hmem, rfl⟩

end Builder

/-- What an outcome of building tells of the tokens. -/
def Tree.Accounts (tokens : List Token) : Except StructuralError Tree → Prop
  | .ok t => operands tokens = operators tokens + 1 ∧ t.nodeCount = tokens.length
  | .error .empty => tokens = []
  | .error (.multipleRoots count) => operands tokens = operators tokens + count ∧ 2 ≤ count
  | .error (.missingOperand op available) => .operator op ∈ tokens ∧ available ≤ 1
  | .error (.unexpectedParen side) => .paren side ∈ tokens

theorem Tree.ofPostfix_accounts (tokens : List Token) : Accounts tokens (ofPostfix tokens) := by
  rw [ofPostfix]
  cases hfold : tokens.foldlM Builder.push Builder.start with
  | error error =>
    rcases Builder.foldlM_push_error hfold with ⟨op, available, hmem, rfl, hle⟩ | ⟨side, hmem, rfl⟩
    · exact ⟨hmem, hle⟩
    · exact hmem
  | ok b =>
    obtain ⟨hsize, hempty, hwaiting⟩ := Builder.foldlM_push_ok hfold
    rw [show Builder.start.arena.size = 0 from rfl, Nat.zero_add] at hsize
    rw [show Builder.start.waiting.length = 0 from rfl, Nat.zero_add] at hwaiting
    show Accounts tokens b.finish
    obtain ⟨arena, waiting, hlt⟩ := b
    rcases waiting with _ | ⟨root, _ | ⟨next, rest⟩⟩
    · exact hempty rfl
    · exact ⟨by rw [← hwaiting, List.length_singleton, Nat.add_comm], hsize⟩
    · refine ⟨?_, Nat.le_add_left _ _⟩
      rw [← hwaiting, Nat.add_comm]

end Calculator
