import Calculator.Decimal

/-! # The text of a number

A finite number is written with the fewest significant digits that read back as the number. Of the
decimals with that many digits the nearest is taken, and the upper one of two that are equally near.
The digits are found by giving up digits of the number's exact decimal expansion: first all but
one, then fewer and fewer, until a neighbour of the number among the decimals left reads back;
with no digit given up, the exact expansion does.
-/

namespace Calculator

-- Powers are those of natural numbers, whatever other powers are in scope.
attribute [local instance (high)] instPowNat

namespace Magnitude

/-- The places of the exact decimal expansion of a quantum, 2 ^ -1074. -/
def exactPlaces : Nat := 1074

/-- A finite magnitude as a whole number of units 10 ^ -1074. -/
def exactCoefficient (m : Magnitude) : Nat := m.quanta * 5 ^ exactPlaces

/-- Whether `digits`, followed by `dropped` zeros, in units of 10 ^ -1074 rounds to the
magnitude. -/
def readsBack (m : Magnitude) (dropped digits : Nat) : Bool :=
  nearest (digits * 10 ^ dropped) (5 ^ exactPlaces) = m

/-- The exact expansion with its last `dropped` digits given up, rounded down and up: the nearer
of the two first, and the upper one where they are equally near. -/
def neighbours (m : Magnitude) (dropped : Nat) : List Nat :=
  let unit := 10 ^ dropped
  let below := m.exactCoefficient / unit
  if 2 * (m.exactCoefficient % unit) < unit then [below, below + 1] else [below + 1, below]

/-- The fewest digits that read back when at most `dropped` digits of the exact expansion are given
up, and how many are. -/
def shortestFrom (m : Magnitude) : (dropped : Nat) → Nat × Nat
  | 0 => (m.exactCoefficient, 0)
  | dropped + 1 =>
    let found := (m.neighbours (dropped + 1)).find? (m.readsBack (dropped + 1))
    (found.map (·, dropped + 1)).getD (m.shortestFrom dropped)

/-- An upper bound on the number of digits of a whole number: a bit is worth less than 0.302
decimal digits. -/
def digitBound (n : Nat) : Nat := (n.log2 + 1) * 302 / 1000 + 1

end Magnitude

namespace Binary64

/-- The decimal that a finite number is printed as. -/
def decimal (negative : Bool) (m : Magnitude) : Decimal :=
  let found := m.shortestFrom (Magnitude.digitBound m.exactCoefficient)
  .trimZeros negative (found.1 * 10 ^ (found.2 - Magnitude.exactPlaces))
    (Magnitude.exactPlaces - found.2)

/-- The text of a number; both zeros are written `0`. -/
def text : Binary64 → String
  | .nan => "NaN"
  | .signed negative m =>
    if m.isInfinite then (if negative then "-inf" else "inf")
    else if m.isZero then "0"
    else (decimal negative m).text

end Binary64

end Calculator
