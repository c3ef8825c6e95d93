import Mathlib
import Calculator.Proofs.WorkingStack

/-!
# The order of the conversion

Where each operand and operator of an arbitrary token list goes is fixed by positions alone: an
operand comes before everything that follows it, and an operator comes before what follows once its
group is closed or an operator that binds no tighter comes in its group (`ClosedAt`).
`toPostfix_order` says that the postfix order is this one and that there is no other.

The invariant of the conversion has two parts. `Placed` relates the positions put out and those
still waiting to the order: what has been put out and then what waits, the latest first, are in
order at all times. `Stacked` gives the depth of each waiting operator as the number of groups below
it.
-/

namespace Calculator.Postfix

section

variable (tokens : List Token)

/-! ## The order -/

/-- The number of open groups after one more token; with none open, `)` leaves it at zero. -/
def depthStep (depth : Nat) : Token → Nat
  | .paren .left => depth + 1
  | .paren .right => depth - 1
  | .number _ | .operator _ => depth

/-- How many groups are open right before a position. -/
def depthAt (m : Nat) : Nat := (tokens.take m).foldl depthStep 0

/-- The token at `m` closes the operator at `i`: both are at the same depth, and it is `)` or an
operator that binds no tighter. -/
def ClosedAt (i m : Nat) : Prop :=
  ∃ op, tokens[i]? = some (.operator op) ∧ depthAt tokens m = depthAt tokens i ∧
    (tokens[m]? = some (.paren .right) ∨
      ∃ incoming, tokens[m]? = some (.operator incoming) ∧
        incoming.precedence ≤ op.precedence)

/-- The positions below `n` of operands and operators. -/
def standing (n : Nat) : List Nat :=
  (List.range n).filter fun i => tokens[i]?.any (!·.isParen)

/-- The order of the positions of operands and operators: an operand comes before all that follow
it, and an operator before those that follow from where it is closed. -/
structure IsOrder (order : List Nat) : Prop where
  perm : order.Perm (standing tokens tokens.length)
  operand : ∀ i ∈ order, ∀ k ∈ order, i < k → ∀ text, tokens[i]? = some (.number text) →
    [i, k].Sublist order
  operator : ∀ i ∈ order, ∀ k ∈ order, i < k → ∀ op, tokens[i]? = some (.operator op) →
    ([i, k].Sublist order ↔ ∃ m, i < m ∧ m ≤ k ∧ ClosedAt tokens i m)

/-- The position is put out before the `n`-th token is reached: it holds an operand, or it has been
closed. -/
def PutOut (i n : Nat) : Prop :=
  (∃ text, tokens[i]? = some (.number text)) ∨ ∃ m, i < m ∧ m < n ∧ ClosedAt tokens i m

/-- The earlier of two positions comes first if it is put out when the later one is reached. -/
def Before (i k : Nat) : Prop :=
  (i < k ∧ PutOut tokens i (k + 1)) ∨ (k < i ∧ ¬ PutOut tokens k (i + 1))

end

variable {tokens : List Token}

theorem PutOut.mono {i m n : Nat} (h : PutOut tokens i m) (hmn : m ≤ n) : PutOut tokens i n := by
  rcases h with h | ⟨p, hip, hpm, hp⟩
  · exact .inl h
  · exact .inr ⟨p, hip, by omega, hp⟩

theorem putOut_succ {i n : Nat} (h : ¬ ClosedAt tokens i n) :
    PutOut tokens i (n + 1) ↔ PutOut tokens i n := by
  refine ⟨fun hi => ?_, fun hi => hi.mono (Nat.le_succ n)⟩
  rcases hi with hi | ⟨m, him, hmn, hm⟩
  · exact .inl hi
  · rcases Nat.lt_succ_iff_lt_or_eq.1 hmn with hmn | rfl
    · exact .inr ⟨m, him, hmn, hm⟩
    · exact absurd hm h

theorem not_closedAt {n : Nat} {token : Token} (htoken : tokens[n]? = some token)
    (hright : token ≠ .paren .right) (hop : ∀ op, token ≠ .operator op) (i : Nat) :
    ¬ ClosedAt tokens i n := by
  rintro ⟨op, -, -, h | ⟨incoming, h, -⟩⟩
  · exact hright (Option.some.inj (htoken.symm.trans h))
  · exact hop incoming (Option.some.inj (htoken.symm.trans h))

theorem Before.asymm {i k : Nat} (h : Before tokens i k) : ¬ Before tokens k i := by
  rintro (⟨hlt, hput⟩ | ⟨hlt, hput⟩) <;> rcases h with ⟨hlt', hput'⟩ | ⟨hlt', hput'⟩
  · omega
  · exact hput' hput
  · exact hput hput'
  · omega

theorem mem_standing {i n : Nat} :
    i ∈ standing tokens n ↔ i < n ∧ ∃ token, tokens[i]? = some token ∧ token.isParen = false := by
  rw [standing, List.mem_filter, List.mem_range]
  cases tokens[i]? <;> simp

theorem standing_succ (n : Nat) :
    standing tokens (n + 1) = standing tokens n ++
      [n].filter fun i => tokens[i]?.any (!·.isParen) := by
  rw [standing, List.range_succ, List.filter_append, standing]

theorem nodup_standing (n : Nat) : (standing tokens n).Nodup :=
  List.nodup_range.filter _

/-! ## Pairs in a list -/

theorem sublist_pair_or {α : Type} {l : List α} {a b : α} (ha : a ∈ l) (hb : b ∈ l) (hab : a ≠ b) :
    [a, b].Sublist l ∨ [b, a].Sublist l := by
  induction l with
  | nil => cases ha
  | cons x l ih =>
    rcases List.mem_cons.1 ha with rfl | hal <;> rcases List.mem_cons.1 hb with rfl | hbl
    · exact absurd rfl hab
    · exact .inl ((List.singleton_sublist.2 hbl).cons_cons _)
    · exact .inr ((List.singleton_sublist.2 hal).cons_cons _)
    · exact (ih hal hbl).imp (·.cons _) (·.cons _)

theorem not_sublist_pair_swap {α : Type} {l : List α} {a b : α} (hl : l.Nodup)
    (h : [a, b].Sublist l) : ¬ [b, a].Sublist l := by
  induction l with
  | nil => cases h
  | cons x l ih =>
    obtain ⟨hx, hl⟩ := List.nodup_cons.1 hl
    intro h'
    cases h with
    | cons _ h =>
      cases h' with
      | cons _ h' => exact ih hl h h'
      | cons_cons _ h' => exact hx (h.subset (by simp))
    | cons_cons _ h =>
      cases h' with
      | cons _ h' => exact hx (h'.subset (by simp))
      | cons_cons _ h' => exact hx (h.subset (by simp))

theorem ne_of_sublist_pair {α : Type} {l : List α} {a b : α} (hl : l.Nodup)
    (h : [a, b].Sublist l) : a ≠ b := by
  rintro rfl
  exact not_sublist_pair_swap hl h h

/-- Operands are put out at once and operators where they are closed, so both parts of the order
say the same of a pair. -/
theorem isOrder_iff_putOut {order : List Nat} :
    IsOrder tokens order ↔ order.Perm (standing tokens tokens.length) ∧
      ∀ i ∈ order, ∀ k ∈ order, i < k →
        ([i, k].Sublist order ↔ PutOut tokens i (k + 1)) := by
  have hoperator : ∀ {i k op}, tokens[i]? = some (.operator op) →
      (PutOut tokens i (k + 1) ↔ ∃ m, i < m ∧ m ≤ k ∧ ClosedAt tokens i m) := by
    intro i k op h
    simp [PutOut, h]
  constructor
  · rintro ⟨hperm, hoperands, hoperators⟩
    refine ⟨hperm, fun i hi k hk hik => ?_⟩
    obtain ⟨-, token, htoken, hparen⟩ := mem_standing.1 (hperm.mem_iff.1 hi)
    cases token with
    | number text => exact iff_of_true (hoperands i hi k hk hik text htoken) (.inl ⟨text, htoken⟩)
    | operator op => exact (hoperators i hi k hk hik op htoken).trans (hoperator htoken).symm
    | paren side => cases hparen
  · rintro ⟨hperm, hput⟩
    exact ⟨hperm, fun i hi k hk hik text h => (hput i hi k hk hik).2 (.inl ⟨text, h⟩),
      fun i hi k hk hik op h => (hput i hi k hk hik).trans (hoperator h)⟩

/-- A list of positions is in order exactly if all its pairs are. -/
theorem isOrder_iff {order : List Nat} :
    IsOrder tokens order ↔
      order.Perm (standing tokens tokens.length) ∧ order.Pairwise (Before tokens) := by
  rw [isOrder_iff_putOut, List.pairwise_iff_forall_sublist]
  refine and_congr_right fun hperm => ?_
  have hnodup := hperm.nodup_iff.2 (nodup_standing _)
  constructor
  · intro hput a b hab
    have ha : a ∈ order := hab.subset (by simp)
    have hb : b ∈ order := hab.subset (by simp)
    rcases Nat.lt_or_gt_of_ne (ne_of_sublist_pair hnodup hab) with hlt | hgt
    · exact .inl ⟨hlt, (hput a ha b hb hlt).1 hab⟩
    · exact .inr ⟨hgt, fun h => not_sublist_pair_swap hnodup hab ((hput b hb a ha hgt).2 h)⟩
  -- One of the two comes first in the list, and `Before` decides which.
  · intro hpair i hi k hk hik
    constructor
    · intro h
      rcases hpair h with ⟨-, hput⟩ | ⟨hki, -⟩
      · exact hput
      · omega
    · intro h
      refine (sublist_pair_or hi hk (Nat.ne_of_lt hik)).resolve_right fun hswap => ?_
      exact (hpair hswap).asymm (.inl ⟨hik, h⟩)

theorem IsOrder.unique {order order' : List Nat} (h : IsOrder tokens order)
    (h' : IsOrder tokens order') : order' = order := by
  obtain ⟨hperm, hpairs⟩ := isOrder_iff.1 h
  obtain ⟨hperm', hpairs'⟩ := isOrder_iff.1 h'
  exact List.Perm.eq_of_pairwise (fun a b _ _ hab hba => absurd hba hab.asymm) hpairs' hpairs
    (hperm'.trans hperm.symm)

/-! ## What has been put out and what waits -/

/-- Of the positions below `n`, those in `out` have been put out and those in `waiting` have not;
put together they are in order. -/
structure Placed (tokens : List Token) (n : Nat) (out waiting : List Nat) : Prop where
  perm : (out ++ waiting).Perm (standing tokens n)
  pairs : (out ++ waiting).Pairwise (Before tokens)
  out_putOut : ∀ i ∈ out, PutOut tokens i n
  waiting_not_putOut : ∀ i ∈ waiting, ¬ PutOut tokens i n

namespace Placed

variable {n : Nat} {out upper lower : List Nat}

theorem lt (h : Placed tokens n out lower) {i : Nat} (hi : i ∈ out ++ lower) : i < n :=
  (mem_standing.1 (h.perm.mem_iff.1 hi)).1

/-- What waits lower on the stack stands earlier. -/
theorem lt_of_below {i j : Nat} {rest : List Nat} (h : Placed tokens n out (upper ++ j :: rest))
    (hi : i ∈ rest) : i < j := by
  have hpairs := (List.pairwise_append.1 (List.pairwise_append.1 h.pairs).2.1).2.1
  rcases (List.pairwise_cons.1 hpairs).1 i hi with ⟨-, hput⟩ | ⟨hlt, -⟩
  · have hin := h.lt (List.mem_append_right out (List.mem_append_right upper (.tail j hi)))
    exact absurd (hput.mono hin) (h.waiting_not_putOut j (by simp))
  · exact hlt

theorem putOut_upper (h : Placed tokens n out (upper ++ lower))
    (hupper : ∀ i ∈ upper, ClosedAt tokens i n) : ∀ i ∈ out ++ upper, PutOut tokens i (n + 1) := by
  intro i hi
  rcases List.mem_append.1 hi with hi | hi
  · exact (h.out_putOut i hi).mono (Nat.le_succ n)
  · exact .inr ⟨n, h.lt (by simp [hi]), Nat.lt_succ_self n, hupper i hi⟩

theorem not_putOut_lower (h : Placed tokens n out (upper ++ lower))
    (hlower : ∀ i ∈ lower, ¬ ClosedAt tokens i n) : ∀ i ∈ lower, ¬ PutOut tokens i (n + 1) :=
  fun i hi hput => h.waiting_not_putOut i (by simp [hi]) ((putOut_succ (hlower i hi)).1 hput)

/-- An operand or operator at `n` comes after what it closes and before what it leaves waiting. -/
theorem insert (h : Placed tokens n out (upper ++ lower))
    (hupper : ∀ i ∈ upper, ClosedAt tokens i n) (hlower : ∀ i ∈ lower, ¬ ClosedAt tokens i n)
    {token : Token} (htoken : tokens[n]? = some token) (hparen : token.isParen = false) :
    (out ++ upper ++ n :: lower).Perm (standing tokens (n + 1)) ∧
      (out ++ upper ++ n :: lower).Pairwise (Before tokens) := by
  have hnew : ([n].filter fun i => tokens[i]?.any (!·.isParen)) = [n] := by simp [htoken, hparen]
  have hperm := h.perm
  have hpairs := h.pairs
  rw [← List.append_assoc] at hperm hpairs
  refine ⟨?_, ?_⟩
  · rw [standing_succ, hnew]
    exact (List.perm_middle.trans (hperm.cons n)).trans (List.perm_append_singleton n _).symm
  · obtain ⟨hfirst, hlast, hcross⟩ := List.pairwise_append.1 hpairs
    refine List.pairwise_append.2 ⟨hfirst, List.pairwise_cons.2 ⟨fun b hb => ?_, hlast⟩, ?_⟩
    · exact .inr ⟨h.lt (by simp [hb]), h.not_putOut_lower hlower b hb⟩
    · intro a ha b hb
      rcases List.mem_cons.1 hb with rfl | hb
      · exact .inl ⟨h.lt (by rw [← List.append_assoc]; exact List.mem_append_left _ ha),
          h.putOut_upper hupper a ha⟩
      · exact hcross a ha b hb

theorem number {text : String} (h : Placed tokens n out lower)
    (htoken : tokens[n]? = some (.number text)) : Placed tokens (n + 1) (out ++ [n]) lower := by
  have hopen := not_closedAt htoken (by simp) (by simp)
  have hput := @putOut_upper tokens n out [] lower h nofun
  obtain ⟨hperm, hpairs⟩ := @insert tokens n out [] lower h nofun (fun i _ => hopen i) _ htoken rfl
  rw [List.append_nil] at hperm hpairs hput
  refine ⟨by simpa using hperm, by simpa using hpairs, fun i hi => ?_,
    @not_putOut_lower tokens n out [] lower h fun i _ => hopen i⟩
  rcases List.mem_append.1 hi with hi | hi
  · exact hput i hi
  · obtain rfl := List.mem_singleton.1 hi
    exact .inl ⟨text, htoken⟩

theorem operator {op : Operator} (h : Placed tokens n out (upper ++ lower))
    (hupper : ∀ i ∈ upper, ClosedAt tokens i n) (hlower : ∀ i ∈ lower, ¬ ClosedAt tokens i n)
    (htoken : tokens[n]? = some (.operator op)) :
    Placed tokens (n + 1) (out ++ upper) (n :: lower) := by
  obtain ⟨hperm, hpairs⟩ := h.insert hupper hlower htoken rfl
  refine ⟨hperm, hpairs, h.putOut_upper hupper, fun i hi => ?_⟩
  rcases List.mem_cons.1 hi with rfl | hi
  · rintro (⟨text, htext⟩ | ⟨m, him, hmi, -⟩)
    · rw [htoken] at htext
      cases htext
    · omega
  · exact h.not_putOut_lower hlower i hi

theorem paren {side : Paren} (h : Placed tokens n out (upper ++ lower))
    (hupper : ∀ i ∈ upper, ClosedAt tokens i n) (hlower : ∀ i ∈ lower, ¬ ClosedAt tokens i n)
    (htoken : tokens[n]? = some (.paren side)) : Placed tokens (n + 1) (out ++ upper) lower := by
  have hnew : ([n].filter fun i => tokens[i]?.any (!·.isParen)) = [] := by
    simp [htoken, Token.isParen]
  refine ⟨?_, ?_, h.putOut_upper hupper, h.not_putOut_lower hlower⟩
  · rw [standing_succ, hnew, List.append_nil, List.append_assoc]
    exact h.perm
  · rw [List.append_assoc]
    exact h.pairs

end Placed

/-! ## The stack with positions -/

/-- The position of an entry, if the entry is an operator. -/
def operatorAt? : Nat × Waiting → Option Nat
  | (i, .operator _) => some i
  | (_, .group) => none

/-- The positions of the operators on the stack. -/
def operators (held : List (Nat × Waiting)) : List Nat := held.filterMap operatorAt?

/-- How many groups are open on the stack. -/
def groups (held : List (Nat × Waiting)) : Nat := held.countP (!·.2.isOperator)

theorem operators_operator (i : Nat) (op : Operator) (held : List (Nat × Waiting)) :
    operators ((i, .operator op) :: held) = i :: operators held := rfl

theorem operators_append (upper lower : List (Nat × Waiting)) :
    operators (upper ++ lower) = operators upper ++ operators lower :=
  List.filterMap_append

theorem mem_operators {i : Nat} {held : List (Nat × Waiting)} :
    i ∈ operators held ↔ ∃ op, (i, .operator op) ∈ held := by
  rw [operators, List.mem_filterMap]
  constructor
  · rintro ⟨⟨j, entry⟩, hmem, hentry⟩
    cases entry with
    | group => cases hentry
    | operator op =>
      obtain rfl := Option.some.inj hentry
      exact ⟨op, hmem⟩
  · rintro ⟨op, hmem⟩
    exact ⟨_, hmem, rfl⟩

theorem groups_operator (i : Nat) (op : Operator) (held : List (Nat × Waiting)) :
    groups ((i, .operator op) :: held) = groups held :=
  List.countP_cons_of_neg (by simp [Waiting.isOperator])

theorem groups_group (i : Nat) (held : List (Nat × Waiting)) :
    groups ((i, .group) :: held) = groups held + 1 :=
  List.countP_cons_of_pos rfl

theorem groups_append (upper lower : List (Nat × Waiting)) :
    groups (upper ++ lower) = groups upper + groups lower :=
  List.countP_append

theorem groups_eq_zero {held : List (Nat × Waiting)} :
    groups held = 0 ↔ ∀ entry ∈ held, entry.2.isOperator = true := by
  rw [groups, List.countP_eq_zero]
  simp

/-- The stack holds operators of the tokens, each at the depth that the groups below it give. -/
structure Stacked (tokens : List Token) (n : Nat) (held : List (Nat × Waiting)) : Prop where
  token : ∀ i op, (i, .operator op) ∈ held → tokens[i]? = some (.operator op)
  below : ∀ i op lower, (i, .operator op) :: lower <:+ held → depthAt tokens i = groups lower
  depth : depthAt tokens n = groups held

theorem depthAt_succ {n : Nat} {token : Token} (h : tokens[n]? = some token) :
    depthAt tokens (n + 1) = depthStep (depthAt tokens n) token := by
  rw [depthAt, List.take_add_one, h, List.foldl_append]
  rfl

namespace Stacked

variable {n : Nat} {held upper lower : List (Nat × Waiting)}

theorem keep (h : Stacked tokens n held) (hdepth : depthAt tokens (n + 1) = depthAt tokens n) :
    Stacked tokens (n + 1) held :=
  ⟨h.token, h.below, hdepth.trans h.depth⟩

/-- A lower part of the stack, with as many groups as are open. -/
theorem drop_upper (h : Stacked tokens n (upper ++ lower))
    (hdepth : depthAt tokens (n + 1) = groups lower) : Stacked tokens (n + 1) lower :=
  ⟨fun i op hi => h.token i op (List.mem_append_right _ hi),
    fun i op rest hrest => h.below i op rest (hrest.trans (List.suffix_append _ _)), hdepth⟩

theorem push (h : Stacked tokens n (upper ++ lower)) {op : Operator}
    (hupper : groups upper = 0) (htoken : tokens[n]? = some (.operator op)) :
    Stacked tokens (n + 1) ((n, .operator op) :: lower) := by
  have hdepth : depthAt tokens n = groups lower := by
    rw [h.depth, groups_append, hupper, Nat.zero_add]
  have hlower := h.drop_upper ((depthAt_succ htoken).trans hdepth)
  refine ⟨fun i op' hi => ?_, fun i op' rest hrest => ?_, (depthAt_succ htoken).trans hdepth⟩
  · rcases List.mem_cons.1 hi with hi | hi
    · cases hi
      exact htoken
    · exact hlower.token i op' hi
  · rcases List.suffix_cons_iff.1 hrest with heq | hrest
    · cases heq
      exact hdepth
    · exact hlower.below i op' rest hrest

theorem open_group (h : Stacked tokens n held) (htoken : tokens[n]? = some (.paren .left)) :
    Stacked tokens (n + 1) ((n, .group) :: held) := by
  refine ⟨fun i op hi => ?_, fun i op rest hrest => ?_, ?_⟩
  · exact h.token i op (by simpa using hi)
  · rcases List.suffix_cons_iff.1 hrest with heq | hrest
    · cases heq
    · exact h.below i op rest hrest
  · rw [depthAt_succ htoken, h.depth, groups_group]
    rfl

/-- The operators of the innermost group are at the depth that is open. -/
theorem depthAt_upper (h : Stacked tokens n (upper ++ lower)) (hupper : groups upper = 0) {i : Nat}
    (hi : i ∈ operators upper) : depthAt tokens n = depthAt tokens i := by
  obtain ⟨op, hi⟩ := mem_operators.1 hi
  -- The groups below the entry are all those of the stack: there is none in `u` and `v`.
  obtain ⟨u, v, rfl⟩ := List.append_of_mem hi
  have hbelow := h.below i op (v ++ lower) ⟨u, by simp⟩
  rw [groups_append, groups_operator] at hupper
  rw [h.depth, hbelow, groups_append, groups_append, groups_append, groups_operator]
  omega

/-- Operators below an open group are at lesser depths. -/
theorem depthAt_lt (h : Stacked tokens n (upper ++ lower)) (hgroup : 0 < groups upper) {i : Nat}
    (hi : i ∈ operators lower) : depthAt tokens i < depthAt tokens n := by
  obtain ⟨op, hi⟩ := mem_operators.1 hi
  obtain ⟨u, v, rfl⟩ := List.append_of_mem hi
  have hbelow := h.below i op v ⟨upper ++ u, by simp⟩
  rw [h.depth, hbelow, groups_append, groups_append, groups_operator]
  omega

end Stacked

/-! ## The invariant of the conversion -/

/-- After `n` tokens, the positions account for what has been put out and what waits. -/
structure Tracks (tokens : List Token) (n : Nat) (result : List Token × List Waiting)
    (out : List Nat) (held : List (Nat × Waiting)) : Prop where
  placed : Placed tokens n out (operators held)
  stacked : Stacked tokens n held
  out_eq : result.1.map some = out.map (tokens[·]?)
  held_eq : result.2 = held.map Prod.snd

theorem drain_eq {held : List (Nat × Waiting)}
    (h : ∀ i op, (i, .operator op) ∈ held → tokens[i]? = some (.operator op)) :
    (drain (held.map Prod.snd)).map some = (operators held).map (tokens[·]?) := by
  induction held with
  | nil => rfl
  | cons entry held ih =>
    have hrest := ih fun i op hi => h i op (.tail _ hi)
    obtain ⟨i, op | _⟩ := entry
    · exact congr (congrArg _ (h i op (.head _)).symm) hrest
    · exact hrest

/-- Below an open group nothing is closed: it is at lesser depths. -/
theorem not_closedAt_below {n : Nat} {upper lower : List (Nat × Waiting)}
    (hs : Stacked tokens n (upper ++ lower)) (hgroup : 0 < groups upper) :
    ∀ i ∈ operators lower, ¬ ClosedAt tokens i n := by
  rintro i hi ⟨op, -, hdepth, -⟩
  have hlt := hs.depthAt_lt hgroup hi
  omega

/-- An operator closes nothing below the first entry that it keeps: what is at its depth there binds
looser than that entry, or would have been closed by it. -/
theorem not_closedAt_kept {n : Nat} {out : List Nat} {upper lower : List (Nat × Waiting)}
    {incoming : Operator} (hp : Placed tokens n out (operators (upper ++ lower)))
    (hs : Stacked tokens n (upper ++ lower)) (hupper : groups upper = 0)
    (hkept : ∀ entry, lower.head? = some entry → entry.2.closedBy incoming = false)
    (htoken : tokens[n]? = some (.operator incoming)) :
    ∀ i ∈ operators lower, ¬ ClosedAt tokens i n := by
  match lower, hkept with
  | [], _ => nofun
  | (j, .group) :: rest, _ =>
    rw [List.append_cons] at hs
    refine fun i hi => not_closedAt_below hs ?_ i hi
    rw [groups_append, groups_group]
    omega
  | (j, .operator kept) :: rest, hkept =>
    have hj : tokens[j]? = some (.operator kept) := hs.token j kept (by simp)
    have hjdepth : depthAt tokens n = depthAt tokens j := by
      rw [hs.depth, hs.below j kept rest (List.suffix_append _ _), groups_append, hupper,
        groups_operator, Nat.zero_add]
    have hjprec : kept.precedence < incoming.precedence := by
      have hopen : ¬ kept.closedBy incoming = true := by simpa [Waiting.closedBy] using hkept
      rw [Operator.closedBy_iff] at hopen
      omega
    rw [operators_append, operators_operator] at hp
    rintro i hi ⟨op, hop, hdepth, hclose⟩
    have hprec : incoming.precedence ≤ op.precedence := by
      rcases hclose with h | ⟨op', h, hle⟩
      · rw [htoken] at h
        cases h
      · rw [htoken] at h
        cases h
        exact hle
    rcases List.mem_cons.1 hi with rfl | hi
    · rw [hj] at hop
      cases hop
      omega
    -- An older operator that `incoming` closes would have been closed by the kept one at `j`.
    · have hclosed : ClosedAt tokens i j :=
        ⟨op, hop, hjdepth.symm.trans hdepth, .inr ⟨kept, hj, by omega⟩⟩
      have hij : i < j := hp.lt_of_below hi
      have hjn : j < n := hp.lt (by simp)
      have hwaits : i ∈ operators upper ++ j :: operators rest :=
        List.mem_append_right _ (.tail _ hi)
      exact hp.waiting_not_putOut i hwaits (.inr ⟨j, hij, hjn, hclosed⟩)

/-- The stack cut below the longest top segment of operators of a kind. -/
theorem exists_split {p : Waiting → Bool} (hp : ∀ entry, p entry = true → entry.isOperator = true)
    (held : List (Nat × Waiting)) :
    ∃ upper lower, held = upper ++ lower ∧ groups upper = 0 ∧
      (∀ entry ∈ upper, p entry.2 = true) ∧
      (∀ entry, lower.head? = some entry → p entry.2 = false) ∧
      (held.map Prod.snd).takeWhile p = upper.map Prod.snd ∧
      (held.map Prod.snd).dropWhile p = lower.map Prod.snd := by
  have hall : ∀ entry ∈ held.takeWhile (p ∘ Prod.snd), p entry.2 = true :=
    List.all_eq_true.1 List.all_takeWhile
  refine ⟨_, _, List.takeWhile_append_dropWhile.symm,
    groups_eq_zero.2 fun entry hentry => hp _ (hall entry hentry), hall, fun entry hentry => ?_,
    List.takeWhile_map, List.dropWhile_map⟩
  have hstop := List.head?_dropWhile_not (p ∘ Prod.snd) held
  rw [hentry] at hstop
  simpa using hstop

/-- What is put out with the top segment of the stack is closed. -/
theorem Stacked.closedAt_upper {n : Nat} {upper lower : List (Nat × Waiting)}
    (h : Stacked tokens n (upper ++ lower)) (hupper : groups upper = 0)
    (hclose : ∀ i op, (i, .operator op) ∈ upper → tokens[n]? = some (.paren .right) ∨
      ∃ incoming, tokens[n]? = some (.operator incoming) ∧
        incoming.precedence ≤ op.precedence) :
    ∀ i ∈ operators upper, ClosedAt tokens i n := by
  intro i hi
  obtain ⟨op, hop⟩ := mem_operators.1 hi
  exact ⟨op, h.token i op (List.mem_append_left _ hop), h.depthAt_upper hupper hi, hclose i op hop⟩

namespace Tracks

variable {n : Nat} {put : List Token} {out : List Nat}

theorem out_upper {upper lower : List (Nat × Waiting)}
    (h : Tracks tokens n (put, (upper ++ lower).map Prod.snd) out (upper ++ lower)) :
    (put ++ drain (upper.map Prod.snd)).map some =
      (out ++ operators upper).map (tokens[·]?) := by
  have hdrain := @drain_eq tokens upper fun i op hi =>
    h.stacked.token i op (List.mem_append_left _ hi)
  rw [List.map_append, List.map_append, hdrain]
  exact congrArg (· ++ _) h.out_eq

variable {held : List (Nat × Waiting)}

theorem number {text : String} (h : Tracks tokens n (put, held.map Prod.snd) out held)
    (htoken : tokens[n]? = some (.number text)) :
    Tracks tokens (n + 1) (put ++ [.number text], held.map Prod.snd) (out ++ [n]) held := by
  refine ⟨h.placed.number htoken, h.stacked.keep (depthAt_succ htoken), ?_, rfl⟩
  rw [List.map_append, List.map_append, List.map_singleton, List.map_singleton, htoken]
  exact congrArg (· ++ _) h.out_eq

theorem operator {op : Operator} (h : Tracks tokens n (put, held.map Prod.snd) out held)
    (htoken : tokens[n]? = some (.operator op)) :
    ∃ out' held', Tracks tokens (n + 1) (put ++ (closeOperators op (held.map Prod.snd)).1,
      .operator op :: (closeOperators op (held.map Prod.snd)).2) out' held' := by
  have hkind : ∀ entry, Waiting.closedBy op entry = true → entry.isOperator = true := by
    intro entry hentry
    cases entry with
    | operator waiting => rfl
    | group => cases hentry
  obtain ⟨upper, lower, rfl, hupper, hpopped, hkept, htake, hdrop⟩ := exists_split hkind held
  have hclosed := h.stacked.closedAt_upper hupper fun i top hi =>
    .inr ⟨op, htoken, Operator.closedBy_iff.1 (hpopped _ hi)⟩
  have hopen := not_closedAt_kept h.placed h.stacked hupper hkept htoken
  refine ⟨out ++ operators upper, (n, .operator op) :: lower, ?_, h.stacked.push hupper htoken, ?_,
    ?_⟩
  · exact (operators_append upper lower ▸ h.placed).operator hclosed hopen htoken
  · rw [closeOperators_eq, htake]
    exact h.out_upper
  · rw [closeOperators_eq, hdrop]
    rfl

theorem open_group (h : Tracks tokens n (put, held.map Prod.snd) out held)
    (htoken : tokens[n]? = some (.paren .left)) :
    Tracks tokens (n + 1) (put, .group :: held.map Prod.snd) out ((n, .group) :: held) := by
  refine ⟨?_, h.stacked.open_group htoken, h.out_eq, rfl⟩
  have hopen := not_closedAt htoken (by simp) (by simp)
  have hplaced := @Placed.paren tokens n out [] (operators held) .left h.placed nofun
    (fun i _ => hopen i) htoken
  rwa [List.append_nil] at hplaced

theorem close_group (h : Tracks tokens n (put, held.map Prod.snd) out held)
    (htoken : tokens[n]? = some (.paren .right)) :
    ∃ out' held', Tracks tokens (n + 1) (put ++ (closeGroup (held.map Prod.snd)).1,
      (closeGroup (held.map Prod.snd)).2) out' held' := by
  obtain ⟨upper, lower, rfl, hupper, -, hkept, htake, hdrop⟩ := exists_split (fun _ h => h) held
  have hclosed := h.stacked.closedAt_upper hupper fun _ _ _ => .inl htoken
  have hdepth := depthAt_succ htoken
  rw [h.stacked.depth, groups_append, hupper, Nat.zero_add] at hdepth
  have hplaced := operators_append upper lower ▸ h.placed
  have hout := h.out_upper
  refine ⟨out ++ operators upper, lower.tail, ?_⟩
  rw [closeGroup_eq, htake, hdrop]
  -- What the top segment leaves is nothing, with `)` unmatched, or starts with the group to drop.
  match lower, hkept with
  | [], _ =>
    exact ⟨hplaced.paren hclosed nofun htoken, h.stacked.drop_upper hdepth, hout, rfl⟩
  | (j, .operator kept) :: rest, hkept => cases hkept _ rfl
  | (j, .group) :: rest, _ =>
    have hs := h.stacked
    rw [List.append_cons] at hs
    have hopen := not_closedAt_below hs (by rw [groups_append, groups_group]; omega)
    rw [groups_group] at hdepth
    exact ⟨hplaced.paren hclosed hopen htoken, hs.drop_upper hdepth, hout, rfl⟩

theorem step {stack : List Waiting} {token : Token} (h : Tracks tokens n (put, stack) out held)
    (htoken : tokens[n]? = some token) :
    ∃ out' held', Tracks tokens (n + 1)
      (put ++ (Postfix.step stack token).1, (Postfix.step stack token).2) out' held' := by
  obtain rfl : stack = held.map Prod.snd := h.held_eq
  rcases token with text | op | side | side
  · exact ⟨_, _, h.number htoken⟩
  · exact h.operator htoken
  · exact ⟨_, _, (List.append_nil put).symm ▸ h.open_group htoken⟩
  · exact h.close_group htoken

end Tracks

/-- The positions account for every run over the first tokens. -/
theorem tracks_run {n : Nat} (hn : n ≤ tokens.length) :
    ∃ out held, Tracks tokens n (run [] (tokens.take n)) out held := by
  induction n with
  | zero =>
    refine ⟨[], [], ⟨.refl _, .nil, nofun, nofun⟩, ⟨nofun, ?_, rfl⟩, rfl, rfl⟩
    intro i op lower hlower
    cases List.suffix_nil.1 hlower
  | succ n ih =>
    obtain ⟨out, held, h⟩ := ih (Nat.le_of_succ_le hn)
    have htoken : tokens[n]? = some tokens[n] := List.getElem?_eq_getElem hn
    obtain ⟨out', held', h'⟩ := h.step htoken
    refine ⟨out', held', ?_⟩
    rw [List.take_add_one, htoken, run_append]
    simpa [run] using h'

/-- The postfix order has the operands and operators of any token list in the one order in which an
operand comes before all that follow it and an operator before those that follow from where it is
closed. -/
theorem toPostfix_order (tokens : List Token) :
    ∃ order, (∀ o, IsOrder tokens o ↔ o = order) ∧
      (Token.toPostfix tokens).map some = order.map (tokens[·]?) := by
  obtain ⟨out, held, h⟩ := @tracks_run tokens _ (Nat.le_refl _)
  rw [List.take_length] at h
  have horder : IsOrder tokens (out ++ operators held) :=
    isOrder_iff.2 ⟨h.placed.perm, h.placed.pairs⟩
  refine ⟨out ++ operators held, fun o => ⟨fun ho => horder.unique ho, fun ho => ho ▸ horder⟩, ?_⟩
  show ((run [] tokens).1 ++ drain (run [] tokens).2).map some = _
  rw [h.held_eq, List.map_append, List.map_append, h.out_eq, drain_eq h.stacked.token]

end Calculator.Postfix
