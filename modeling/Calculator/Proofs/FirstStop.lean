import Mathlib
import Calculator.Proofs.Drafts

/-!
# Where building stops

Building stops at the first parenthesis and at the first operator that finds fewer than two
subtrees. How many subtrees wait at a place is how many more operands than operators stand before it
(`Builder.foldlM_take`), so the place is found by counting alone, and with it the outcome of
building (`Tree.ofPostfix_outcome`).
-/

namespace Calculator

namespace Token

/-- How many more operands than operators there are among the first `k` tokens. -/
def height (tokens : List Token) (k : Nat) : Int :=
  (operands (tokens.take k) : Int) - operators (tokens.take k)

/-- Whether building stops at the token when that many subtrees wait. -/
def stops (waiting : Int) : Token → Bool
  | .number _ => false
  | .operator _ => waiting < 2
  | .paren _ => true

/-- Whether building stops at place `k`, if it comes there. -/
def stopsAt (tokens : List Token) (k : Nat) : Bool := tokens[k]?.any (stops (height tokens k))

/-- Building stops at place `k`, where the token stands, and at none before it. -/
structure StopsFirst (tokens : List Token) (k : Nat) (token : Token) : Prop where
  at_place : tokens[k]? = some token
  stops : token.stops (height tokens k) = true
  before : ∀ j < k, stopsAt tokens j = false

variable {tokens : List Token} {k : Nat} {token : Token}

/-- A number adds one to the height and an operator takes one away. -/
theorem height_succ (h : tokens[k]? = some token) :
    height tokens (k + 1) + token.operator?.isSome.toNat =
      height tokens k + token.isNumber.toNat := by
  have htake : tokens.take (k + 1) = tokens.take k ++ [token] := by
    rw [List.take_add_one, h, Option.toList_some]
  have hoperands : operands [token] = token.isNumber.toNat :=
    (operands_cons token []).trans (Nat.zero_add _)
  have hoperators : operators [token] = token.operator?.isSome.toNat :=
    (operators_cons token []).trans (Nat.zero_add _)
  rw [height, height, htake, operands_append, operators_append, hoperands, hoperators]
  omega

end Token

open Token (height stops stopsAt StopsFirst)

namespace Builder

variable {tokens : List Token} {k : Nat} {token : Token}

theorem push_of_not_stops {b : Builder} (h : token.stops b.waiting.length = false) :
    ∃ b', b.push token = .ok b' := by
  cases hpush : b.push token with
  | ok b' => exact ⟨b', rfl⟩
  | error error =>
    rcases push_error hpush with ⟨op, rfl, -, hle⟩ | ⟨side, rfl, -⟩
    · simp only [stops, decide_eq_false_iff_not] at h
      omega
    · cases h

theorem push_operator_of_stops {b : Builder} {op : Operator}
    (h : (Token.operator op).stops b.waiting.length = true) :
    b.push (.operator op) = .error (.missingOperand op b.waiting.length) := by
  simp only [stops, decide_eq_true_eq] at h
  cases hpush : b.push (.operator op) with
  | ok b' =>
    -- One subtree is left after an operator that is taken, so there were two.
    obtain ⟨-, hpos, hcount⟩ := push_ok hpush
    simp only [Token.operator?, Option.isSome_some, Token.isNumber, Bool.toNat_true,
      Bool.toNat_false] at hcount
    omega
  | error error =>
    rcases push_error hpush with ⟨op', hop, rfl, -⟩ | ⟨side, hside, -⟩
    · rw [Token.operator.inj hop]
    · cases hside

/-- How many subtrees are left decides whether there is a tree. -/
theorem finish_eq (b : Builder) :
    (b.waiting.length = 0 → b.finish = .error .empty) ∧
    (b.waiting.length = 1 → ∃ t, b.finish = .ok t) ∧
    (2 ≤ b.waiting.length → b.finish = .error (.multipleRoots b.waiting.length)) := by
  obtain ⟨arena, waiting, hlt⟩ := b
  rcases waiting with _ | ⟨root, _ | ⟨next, rest⟩⟩
  · exact ⟨fun _ => rfl, nofun, nofun⟩
  · exact ⟨nofun, fun _ => ⟨_, rfl⟩, fun h => absurd h (by simp)⟩
  · exact ⟨nofun, fun h => absurd h (by simp), fun _ => rfl⟩

/-- Before the first stop as many subtrees wait as there are more operands than operators. -/
theorem foldlM_take (hk : k ≤ tokens.length) (h : ∀ j < k, stopsAt tokens j = false) :
    ∃ b, (tokens.take k).foldlM push start = .ok b ∧
      (b.waiting.length : Int) = height tokens k := by
  induction k with
  | zero => exact ⟨start, rfl, rfl⟩
  | succ k ih =>
    obtain ⟨b, hfold, hlength⟩ := ih (by omega) fun j hj => h j (by omega)
    obtain ⟨token, htoken⟩ : ∃ token, tokens[k]? = some token :=
      ⟨tokens[k], List.getElem?_eq_getElem hk⟩
    have hstops : token.stops b.waiting.length = false := by
      have hat := h k (Nat.lt_succ_self k)
      rwa [stopsAt, htoken, Option.any_some, ← hlength] at hat
    obtain ⟨next, hpush⟩ := push_of_not_stops hstops
    obtain ⟨-, -, hcount⟩ := push_ok hpush
    have hheight := Token.height_succ htoken
    refine ⟨next, ?_, by omega⟩
    rw [List.take_add_one, htoken, Option.toList_some, List.foldlM_append, hfold]
    show [token].foldlM push b = _
    rw [List.foldlM_cons, hpush]
    rfl

end Builder

namespace Tree

variable {tokens : List Token} {k : Nat} {token : Token}

/-- The error of the first token that building stops at is the outcome. -/
theorem ofPostfix_of_stopsFirst (h : StopsFirst tokens k token) :
    ∃ b : Builder, (b.waiting.length : Int) = height tokens k ∧
      ∀ error, b.push token = .error error → ofPostfix tokens = .error error := by
  obtain ⟨hk, htoken⟩ := List.getElem?_eq_some_iff.1 h.at_place
  obtain ⟨b, hfold, hlength⟩ := Builder.foldlM_take (Nat.le_of_lt hk) h.before
  refine ⟨b, hlength, fun error herror => ?_⟩
  have hsplit : tokens = tokens.take k ++ token :: tokens.drop (k + 1) := by
    rw [← htoken, ← List.drop_eq_getElem_cons hk, List.take_append_drop]
  rw [ofPostfix, hsplit, List.foldlM_append, hfold]
  show ((token :: tokens.drop (k + 1)).foldlM Builder.push b >>= Builder.finish) = _
  rw [List.foldlM_cons, herror]
  rfl

/-- Where no token stops building, the subtrees that are left decide. -/
theorem ofPostfix_of_not_stops (h : ∀ k < tokens.length, stopsAt tokens k = false) :
    ∃ b : Builder, (b.waiting.length : Int) = height tokens tokens.length ∧
      ofPostfix tokens = b.finish ∧ (b.waiting.length = 0 → tokens = []) := by
  obtain ⟨b, hfold, hlength⟩ := Builder.foldlM_take (Nat.le_refl tokens.length) h
  rw [List.take_length] at hfold
  refine ⟨b, hlength, ?_, (Builder.foldlM_push_ok hfold).2.1⟩
  rw [ofPostfix, hfold]
  rfl

/-- The outcome of building, found by counting. The first token that stops building is reported, a
parenthesis as such and an operator with the number of operands that are left for it. If there is
none, the list is empty, or one subtree is left and makes the tree, or several are left. Only the
empty list is reported as such. While there are words for all nodes, building with words has the
same outcome, and wherever it has come, the checks of the arena and of the root pass. -/
theorem ofPostfix_outcome (tokens : List Token) :
    (∀ k side, StopsFirst tokens k (.paren side) →
      ofPostfix tokens = .error (.unexpectedParen side)) ∧
    (∀ k op, StopsFirst tokens k (.operator op) → ∃ available : Nat,
      (available : Int) = height tokens k ∧
        ofPostfix tokens = .error (.missingOperand op available)) ∧
    ((∀ k < tokens.length, stopsAt tokens k = false) →
      (tokens = [] → ofPostfix tokens = .error .empty) ∧
      (height tokens tokens.length = 1 → ∃ t, ofPostfix tokens = .ok t) ∧
      (2 ≤ height tokens tokens.length → ∃ count : Nat,
        (count : Int) = height tokens tokens.length ∧
          ofPostfix tokens = .error (.multipleRoots count)) ∧
      (tokens = [] ∨ 1 ≤ height tokens tokens.length)) ∧
    (ofPostfix tokens = .error .empty ↔ tokens = []) ∧
    (tokens.length < 2 ^ 32 → Draft.build tokens = ofPostfix tokens ∧
      ∀ read d, read <+: tokens → read.foldlM Draft.push Draft.start = .ok d → d.Passes) := by
  refine ⟨fun k side h => ?_, fun k op h => ?_, fun h => ?_, ⟨fun h => ?_, ?_⟩, fun h => ?_⟩
  · obtain ⟨b, -, hreport⟩ := ofPostfix_of_stopsFirst h
    exact hreport _ rfl
  · obtain ⟨b, hlength, hreport⟩ := ofPostfix_of_stopsFirst h
    have hstops := h.stops
    rw [← hlength] at hstops
    exact ⟨b.waiting.length, hlength, hreport _ (Builder.push_operator_of_stops hstops)⟩
  · obtain ⟨b, hlength, houtcome, hempty⟩ := ofPostfix_of_not_stops h
    obtain ⟨hnone, hone, hmany⟩ := b.finish_eq
    rw [← hlength, houtcome]
    refine ⟨fun hnil => hnone ?_, fun h => hone (by omega), fun h => ⟨_, rfl, hmany (by omega)⟩, ?_⟩
    · subst hnil
      exact Int.ofNat_eq_zero.1 hlength
    · rcases Nat.eq_zero_or_pos b.waiting.length with hzero | hpos
      · exact .inl (hempty hzero)
      · exact .inr (by omega)
  · have haccounts := ofPostfix_accounts tokens
    rw [h] at haccounts
    exact haccounts
  · rintro rfl
    rfl
  · have hle (read : List Token) (hread : read <+: tokens) : read.length ≤ 2 ^ 32 :=
      Nat.le_trans hread.length_le (Nat.le_of_lt h)
    exact ⟨Draft.build_eq (hle tokens (List.prefix_refl _)), fun read d hread hfold =>
      Draft.passes_of_foldlM (hle read hread) hfold⟩

/-- An unmatched `)` before an operator that lacks an operand, `1 2 + -` before a `(`, one subtree that
is left, two, and the draft of two numbers. -/
theorem ofPostfix_outcome_each :
    let one := Token.number "1"
    let two := Token.number "2"
    (StopsFirst [one, .paren .right, .operator .add] 1 (.paren .right) ∧
      ofPostfix [one, .paren .right, .operator .add] = .error (.unexpectedParen .right)) ∧
    (StopsFirst [one, two, .operator .add, .operator .sub, .paren .left] 3 (.operator .sub) ∧
      ∃ available : Nat,
        (available : Int) = height [one, two, .operator .add, .operator .sub, .paren .left] 3 ∧
          ofPostfix [one, two, .operator .add, .operator .sub, .paren .left] =
            .error (.missingOperand .sub available)) ∧
    ((∀ k < [one, two, .operator .mul].length, stopsAt [one, two, .operator .mul] k = false) ∧
      height [one, two, .operator .mul] 3 = 1 ∧ ∃ t, ofPostfix [one, two, .operator .mul] = .ok t) ∧
    ((∀ k < [one, two].length, stopsAt [one, two] k = false) ∧ 2 ≤ height [one, two] 2 ∧
      ∃ count : Nat, (count : Int) = height [one, two] 2 ∧
        ofPostfix [one, two] = .error (.multipleRoots count)) ∧
    [one, two, .operator .mul].length < 2 ^ 32 ∧
      Draft.build [one, two, .operator .mul] = ofPostfix [one, two, .operator .mul] ∧
      ∃ d, [one, two].foldlM Draft.push Draft.start = .ok d ∧ d.waiting = [1, 0] ∧ d.Passes := by
  intro one two
  have hparen : StopsFirst [one, .paren .right, .operator .add] 1 (.paren .right) :=
    ⟨rfl, rfl, by decide⟩
  have hsub : StopsFirst [one, two, .operator .add, .operator .sub, .paren .left] 3
      (.operator .sub) := ⟨rfl, rfl, by decide⟩
  have hproduct : ∀ k < [one, two, .operator .mul].length,
      stopsAt [one, two, .operator .mul] k = false := by decide
  have hnumbers : ∀ k < [one, two].length, stopsAt [one, two] k = false := by decide
  have hwords : [one, two, .operator .mul].length < 2 ^ 32 := by decide
  obtain ⟨-, -, hone, -, hdraft⟩ := ofPostfix_outcome [one, two, .operator .mul]
  obtain ⟨-, -, hmany, -⟩ := ofPostfix_outcome [one, two]
  refine ⟨⟨hparen, (ofPostfix_outcome _).1 1 .right hparen⟩,
    ⟨hsub, (ofPostfix_outcome _).2.1 3 .sub hsub⟩,
    ⟨hproduct, by decide, (hone hproduct).2.1 (by decide)⟩,
    ⟨hnumbers, by decide, (hmany hnumbers).2.2.1 (by decide)⟩, hwords, (hdraft hwords).1,
    _, rfl, rfl, (hdraft hwords).2 [one, two] _ ⟨[.operator .mul], rfl⟩ rfl⟩

end Tree

end Calculator
