import Mathlib
import Calculator.Expr
import Calculator.Proofs.WorkingStack

/-!
# The grammar of expressions

    sum    ::=  term    |  sum (+ | -) term
    term   ::=  factor  |  term (* | /) factor
    factor ::=  number  |  ( sum )

`Derives` reads a token list as an expression by these rules. The conversion follows them
(`Derives.converts`): from any stack whose top an operator of the level does not close, a sentence
leaves the stack as it was but for operators of the level on top, and what is put out and these
operators together are the expression's tokens, operands before operators.
-/

namespace Calculator

/-- The three symbols of the grammar. -/
inductive Level where
  | sum
  | term
  | factor

/-- `Derives level tokens e`: the rules of `level` derive the tokens, and they stand for `e`. -/
inductive Derives : Level → List Token → Expr → Prop
  | term {t : List Token} {e : Expr} : Derives .term t e → Derives .sum t e
  | sum {op : Operator} {t u : List Token} {l r : Expr} : op = .add ∨ op = .sub →
      Derives .sum t l → Derives .term u r →
      Derives .sum (t ++ .operator op :: u) (.binary op l r)
  | factor {t : List Token} {e : Expr} : Derives .factor t e → Derives .term t e
  | product {op : Operator} {t u : List Token} {l r : Expr} : op = .mul ∨ op = .div →
      Derives .term t l → Derives .factor u r →
      Derives .term (t ++ .operator op :: u) (.binary op l r)
  | number (text : String) : Derives .factor [.number text] (.literal text)
  | group {t : List Token} {e : Expr} : Derives .sum t e →
      Derives .factor (.paren .left :: (t ++ [.paren .right])) e

/-- The least precedence of an operator that stands outside all groups at a level. -/
def Level.floor : Level → Nat
  | .sum => 1
  | .term => 2
  | .factor => 3

namespace Postfix

/-! ## Held operators -/

theorem closeOperators_held {incoming : Operator} {held : List Operator} {stack : List Waiting}
    (hheld : ∀ op ∈ held, incoming.precedence ≤ op.precedence)
    (htop : ∀ op, stack.head? = some (.operator op) → op.precedence < incoming.precedence) :
    closeOperators incoming (held.map .operator ++ stack) = (held.map .operator, stack) := by
  have hall : closeOperators incoming (held.map .operator) = (held.map .operator, []) := by
    induction held with
    | nil => rfl
    | cons op held ih =>
      have hclosed : op.closedBy incoming = true := Operator.closedBy_iff.2 (hheld op (.head _))
      rw [List.map_cons, closeOperators, if_pos hclosed,
        ih fun op hop => hheld op (.tail _ hop), List.map_cons]
  rw [closeOperators_append htop, hall, List.nil_append]

theorem closeGroup_held (held : List Operator) (stack : List Waiting) :
    closeGroup (held.map .operator ++ .group :: stack) = (held.map .operator, stack) := by
  rw [closeGroup_latest (by simp), drain_map_operator]

/-! ## Conversion of a sentence -/

/-- From any stack whose top binds looser than `floor`, the tokens leave the stack as it was but
for operators that bind at least as tightly as `floor` on top, and put out the rest of the
expression's tokens. -/
def Converts (floor : Nat) (tokens : List Token) (e : Expr) : Prop :=
  ∀ stack : List Waiting, (∀ op, stack.head? = some (.operator op) → op.precedence < floor) →
    ∃ (out : List Token) (held : List Operator),
      run stack tokens = (out, held.map .operator ++ stack) ∧
      (∀ op ∈ held, floor ≤ op.precedence) ∧ out ++ held.map .operator = e.postorder

theorem Converts.mono {m n : Nat} {tokens : List Token} {e : Expr} (h : Converts n tokens e)
    (hmn : m ≤ n) : Converts m tokens e := by
  intro stack htop
  obtain ⟨out, held, hrun, hheld, heq⟩ := h stack fun op hop => Nat.lt_of_lt_of_le (htop op hop) hmn
  exact ⟨out, held, hrun, fun op hop => Nat.le_trans hmn (hheld op hop), heq⟩

theorem Converts.number (n : Nat) (text : String) : Converts n [.number text] (.literal text) :=
  fun _ _ => ⟨[.number text], [], rfl, nofun, rfl⟩

theorem Converts.group {tokens : List Token} {e : Expr} (h : Converts 1 tokens e) (n : Nat) :
    Converts n (.paren .left :: (tokens ++ [.paren .right])) e := by
  intro stack _
  obtain ⟨out, held, hrun, -, heq⟩ := h (.group :: stack) (by simp)
  refine ⟨e.postorder, [], ?_, nofun, List.append_nil _⟩
  simp only [run, step, run_append, hrun, closeGroup_held, List.nil_append, List.append_nil, heq,
    List.map_nil]

/-- The operator closes what the left operand holds and then waits below what the right one
holds. -/
theorem Converts.binary (op : Operator) {t u : List Token} {l r : Expr}
    (hl : Converts op.precedence t l) (hr : Converts (op.precedence + 1) u r) :
    Converts op.precedence (t ++ .operator op :: u) (.binary op l r) := by
  intro stack htop
  obtain ⟨out, held, hrun, hheld, heq⟩ := hl stack htop
  -- The right operand is converted above `op`, which none of its operators closes.
  obtain ⟨out', held', hrun', hheld', heq'⟩ := hr (.operator op :: stack) fun top h => by
    obtain rfl : op = top := by simpa using h
    exact Nat.lt_succ_self _
  refine ⟨out ++ (held.map .operator ++ out'), held' ++ [op], ?_, fun top h => ?_, ?_⟩
  · simp only [run_append, hrun, run, step, closeOperators_held hheld htop, hrun', List.map_append,
      List.map_cons, List.map_nil, List.append_assoc, List.cons_append, List.nil_append]
  · rcases List.mem_append.1 h with h | h
    · exact Nat.le_of_succ_le (hheld' top h)
    · obtain rfl := List.mem_singleton.1 h
      exact Nat.le_refl _
  · rw [Expr.postorder, ← heq, ← heq']
    simp only [List.map_append, List.append_assoc, List.map_cons, List.map_nil]

end Postfix

theorem Derives.converts {level : Level} {tokens : List Token} {e : Expr}
    (h : Derives level tokens e) : Postfix.Converts level.floor tokens e := by
  induction h with
  | term _ ih => exact ih.mono (by decide)
  | sum hop _ _ ihl ihr =>
    rcases hop with rfl | rfl
    · exact .binary .add ihl ihr
    · exact .binary .sub ihl ihr
  | factor _ ih => exact ih.mono (by decide)
  | product hop _ _ ihl ihr =>
    rcases hop with rfl | rfl
    · exact .binary .mul ihl ihr
    · exact .binary .div ihl ihr
  | number text => exact .number _ text
  | group _ ih => exact ih.group _

/-- The postfix order of a sentence is the expression's. -/
theorem Derives.toPostfix_eq {level : Level} {tokens : List Token} {e : Expr}
    (h : Derives level tokens e) : Token.toPostfix tokens = e.postorder := by
  obtain ⟨out, held, hrun, -, heq⟩ := h.converts [] (by simp)
  rw [Token.toPostfix, hrun, List.append_nil]
  show out ++ Postfix.drain (held.map .operator) = e.postorder
  rw [Postfix.drain_map_operator, heq]

end Calculator
