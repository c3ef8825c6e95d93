import Calculator.Magnitude

/-! # Binary64 numbers

The numbers expressions are evaluated to: a sign with a magnitude, or not a number. All of the
format's encodings of "not a number" are one value here. The operations are those of binary64
arithmetic: the exact result, rounded to the nearest number with a tie to the even significand.
-/

namespace Calculator

-- Powers are those of natural numbers, whatever other powers are in scope.
attribute [local instance (high)] instPowNat

/-- A binary64 number. -/
inductive Binary64 where
  | nan
  | signed (negative : Bool) (magnitude : Magnitude)
deriving DecidableEq

namespace Binary64

/-! ## The interchange format -/

/-- The number that 64 bits encode: the sign above the rank of the magnitude. -/
def ofBits (bits : UInt64) : Binary64 :=
  let rank := bits.toNat % 2 ^ (63 : Nat)
  if h : rank ≤ infiniteRank then .signed (2 ^ (63 : Nat) ≤ bits.toNat) ⟨rank, h⟩ else .nan

/-- The bits of a number; "not a number" has several encodings and none of its own. -/
def bits? : Binary64 → Option UInt64
  | .nan => none
  | .signed negative m => some (.ofNat ((if negative then 2 ^ (63 : Nat) else 0) + m.rank))

/-- A number is the one that its bits encode. -/
theorem ofBits_of_bits? {x : Binary64} {b : UInt64} (h : x.bits? = some b) : ofBits b = x := by
  cases x with
  | nan => cases h
  | signed negative m =>
    have hm : m.rank < 2 ^ (63 : Nat) := Nat.lt_of_le_of_lt m.rank_le (by decide)
    cases negative with
    | false =>
      have hb : (UInt64.ofNat m.rank).toNat = m.rank :=
        UInt64.toNat_ofNat_of_lt' (Nat.lt_trans hm (by decide))
      have hsign : ¬ 2 ^ (63 : Nat) ≤ m.rank := by omega
      simp only [bits?, Option.some.injEq, Bool.false_eq_true, if_false, Nat.zero_add] at h
      subst h
      simp only [ofBits, hb, Nat.mod_eq_of_lt hm, m.rank_le, dite_true, hsign, decide_false]
    | true =>
      have hb : (UInt64.ofNat (2 ^ (63 : Nat) + m.rank)).toNat = 2 ^ (63 : Nat) + m.rank :=
        UInt64.toNat_ofNat_of_lt' (by show 2 ^ (63 : Nat) + m.rank < 2 ^ (64 : Nat); omega)
      have hrank : (2 ^ (63 : Nat) + m.rank) % 2 ^ (63 : Nat) = m.rank := by omega
      have hsign : 2 ^ (63 : Nat) ≤ 2 ^ (63 : Nat) + m.rank := Nat.le_add_right ..
      simp only [bits?, Option.some.injEq, if_true] at h
      subst h
      simp only [ofBits, hb, hrank, m.rank_le, dite_true, hsign, decide_true]

/-! ## Whole numbers, sign and order -/

/-- How many quanta make one: a quantum is 2 ^ -1074. -/
def quantaPerUnit : Nat := 2 ^ (1074 : Nat)

/-- The number nearest to a whole number. -/
def ofNat (n : Nat) : Binary64 := .signed false (.nearest (n * quantaPerUnit) 1)

instance (n : Nat) : OfNat Binary64 n := ⟨ofNat n⟩

/-- The number with the other sign. -/
def neg : Binary64 → Binary64
  | .nan => .nan
  | .signed negative m => .signed (!negative) m

instance : Neg Binary64 := ⟨neg⟩

/-- The larger of two numbers; "not a number" gives way to the other. -/
def max : Binary64 → Binary64 → Binary64
  | .nan, y => y
  | x, .nan => x
  | .signed s m, .signed t n =>
    let place (negative : Bool) (rank : Nat) : Int := if negative then -rank else rank
    if place s m.rank < place t n.rank then .signed t n else .signed s m

/-! ## Arithmetic -/

/-- A finite number in quanta, with its sign. -/
def signedQuanta (negative : Bool) (m : Magnitude) : Int :=
  if negative then -m.quanta else m.quanta

/-- The sum. Opposite infinities have none; a sum of zero is negative only if both terms are. -/
def add : Binary64 → Binary64 → Binary64
  | .nan, _ | _, .nan => .nan
  | .signed s m, .signed t n =>
    if m.isInfinite then
      if n.isInfinite && s != t then .nan else .signed s m
    else if n.isInfinite then .signed t n
    else
      let sum := signedQuanta s m + signedQuanta t n
      if sum = 0 then .signed (s && t) .zero
      else .signed (sum < 0) (.nearest sum.natAbs 1)

/-- The difference: the sum with the subtrahend's sign changed. -/
def sub (x y : Binary64) : Binary64 := x.add y.neg

/-- The product, negative if the signs differ. Zero and infinity have none. -/
def mul : Binary64 → Binary64 → Binary64
  | .nan, _ | _, .nan => .nan
  | .signed s m, .signed t n =>
    if m.isInfinite || n.isInfinite then
      if m.isZero || n.isZero then .nan else .signed (s != t) .infinity
    else .signed (s != t) (.nearest (m.quanta * n.quanta) quantaPerUnit)

/-- The quotient, negative if the signs differ. A number other than zero divided by zero is
infinite; two zeros and two infinities have none. -/
def div : Binary64 → Binary64 → Binary64
  | .nan, _ | _, .nan => .nan
  | .signed s m, .signed t n =>
    if m.isInfinite then
      if n.isInfinite then .nan else .signed (s != t) .infinity
    else if n.isInfinite then .signed (s != t) .zero
    else if n.isZero then
      if m.isZero then .nan else .signed (s != t) .infinity
    else .signed (s != t) (.nearest (m.quanta * quantaPerUnit) n.quanta)

instance : Add Binary64 := ⟨add⟩

instance : Sub Binary64 := ⟨sub⟩

instance : Mul Binary64 := ⟨mul⟩

instance : Div Binary64 := ⟨div⟩

end Binary64

end Calculator
