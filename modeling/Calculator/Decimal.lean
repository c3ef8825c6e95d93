import Calculator.Binary64

/-! # Decimal numbers

The numbers that literals denote and that values are printed as: digits, some of them after the
point, and a sign. Reading takes an optional minus sign and digits with at most one point and at
least one digit; printing writes digits and a point, never an exponent. Rounding goes to the
nearest binary64 number.
-/

namespace Calculator

-- Powers are those of natural numbers, whatever other powers are in scope.
attribute [local instance (high)] instPowNat

/-- The number `coefficient / 10 ^ places`, with a sign. -/
structure Decimal where
  negative : Bool
  coefficient : Nat
  places : Nat
deriving DecidableEq

namespace Decimal

/-- The nearest binary64 number; the sign is kept, also on zero. -/
def toBinary64 (d : Decimal) : Binary64 :=
  .signed d.negative (.nearest (d.coefficient * Binary64.quantaPerUnit) (10 ^ d.places))

/-! ## Reading -/

/-- The number that digits with at most one point denote; there has to be a digit. -/
def readUnsigned? (negative : Bool) (cs : List Char) : Option Decimal :=
  let whole := cs.takeWhile Char.isDigit
  match cs.dropWhile Char.isDigit with
  | [] =>
    if whole.isEmpty then none else some ⟨negative, Nat.ofDigitChars 10 whole 0, 0⟩
  | c :: fraction =>
    let digits := whole ++ fraction
    if c == '.' && fraction.all Char.isDigit && !digits.isEmpty then
      some ⟨negative, Nat.ofDigitChars 10 digits 0, fraction.length⟩
    else none

/-- The number a text denotes: an optional minus sign, then digits with at most one point. -/
def read? (text : String) : Option Decimal :=
  match text.toList with
  | '-' :: cs => readUnsigned? true cs
  | cs => readUnsigned? false cs

/-! ## Printing -/

/-- The digits of the whole part, and after a point as many further digits as there are places. -/
def chars (d : Decimal) : List Char :=
  let unit := 10 ^ d.places
  let whole := Nat.toDigits 10 (d.coefficient / unit)
  let fraction := (Nat.toDigits 10 (d.coefficient % unit)).leftpad d.places '0'
  (if d.negative then ['-'] else []) ++ whole ++ if d.places = 0 then [] else '.' :: fraction

/-- The text of a decimal number. -/
def text (d : Decimal) : String := String.ofList d.chars

/-- The same number without zeros at the end of the fraction. -/
def trimZeros (negative : Bool) (coefficient : Nat) : (places : Nat) → Decimal
  | 0 => ⟨negative, coefficient, 0⟩
  | places + 1 =>
    if coefficient % 10 = 0 then trimZeros negative (coefficient / 10) places
    else ⟨negative, coefficient, places + 1⟩

end Decimal

end Calculator
