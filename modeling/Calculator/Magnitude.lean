/-! # Magnitudes of binary64 numbers

The magnitudes of binary64 numbers, zero and infinity among them, in increasing order are numbered
0, 1, 2, …; a magnitude is given by this `rank`, which is also what the format stores below the
sign bit. A finite magnitude is a whole number of quanta (`Magnitude.quanta`), the quantum being
the least positive one, 2 ^ -1074. `Magnitude.nearest` rounds a quotient of quanta to the nearest
magnitude, a tie to the even significand, and keeps a magnitude as it is (`nearest_quanta`).
-/

namespace Calculator

-- Powers are those of natural numbers, whatever other powers are in scope.
attribute [local instance (high)] instPowNat

/-- How many magnitudes share an exponent: the fraction has 52 bits. -/
def binadeSize : Nat := 2 ^ (52 : Nat)

/-- The rank of infinity, which follows the last finite magnitude. -/
def infiniteRank : Nat := 2047 * binadeSize

/-- The magnitude of a binary64 number, by its place in increasing order. -/
structure Magnitude where
  rank : Nat
  rank_le : rank ≤ infiniteRank
deriving DecidableEq

namespace Magnitude

/-- The least magnitude. -/
def zero : Magnitude := ⟨0, Nat.zero_le _⟩

/-- The greatest magnitude. -/
def infinity : Magnitude := ⟨infiniteRank, Nat.le_refl _⟩

/-- Whether the magnitude is zero. -/
def isZero (m : Magnitude) : Bool := m.rank == 0

/-- Whether the magnitude is infinity. -/
def isInfinite (m : Magnitude) : Bool := m.rank == infiniteRank

/-- The number of quanta at a rank. The first exponent has the subnormal magnitudes and steps of
one quantum; each later exponent has the implicit leading bit, and from the third on the step
doubles. At the rank of infinity this is 2 ^ 1024, the number a further exponent would start with. -/
def quantaAt (rank : Nat) : Nat :=
  if rank < binadeSize then rank
  else (binadeSize + rank % binadeSize) * 2 ^ (rank / binadeSize - 1)

/-- The magnitude in quanta. -/
def quanta (m : Magnitude) : Nat := quantaAt m.rank

/-! ## Rounding -/

/-- The whole number nearest to a quotient, a half to the even neighbour. -/
def halfEven (num den : Nat) : Nat :=
  let floor := num / den
  let twice := 2 * (num % den)
  if twice < den then floor
  else if den < twice then floor + 1
  else floor + floor % 2

/-- The rank nearest to `num / den` quanta, without an upper end. The quotient is measured in the
steps of its exponent, `2 ^ step` quanta each, which leaves at most 53 bits; rounding up to 2 ^ 53
steps gives the first rank of the next exponent. -/
def nearestRank (num den : Nat) : Nat :=
  let step := (num / den).log2 - 52
  step * binadeSize + halfEven num (den * 2 ^ step)

/-- The magnitude nearest to `num / den` quanta, a tie to the even significand. What rounds beyond
the last finite magnitude is infinite. -/
def nearest (num den : Nat) : Magnitude :=
  ⟨min (nearestRank num den) infiniteRank, Nat.min_le_right ..⟩

/-! ## What needs no rounding is kept -/

/-- A whole multiple of the denominator is its own nearest whole number. -/
theorem halfEven_mul (q : Nat) {den : Nat} (h : 0 < den) : halfEven (q * den) den = q := by
  simp only [halfEven, Nat.mul_mod_left, Nat.mul_zero, h, if_true]
  exact Nat.mul_div_cancel q h

/-- Rounding keeps a rank's own number of quanta. -/
theorem nearestRank_quantaAt (rank : Nat) : nearestRank (quantaAt rank) 1 = rank := by
  unfold nearestRank quantaAt
  by_cases h : rank < binadeSize
  · have hstep : rank.log2 - 52 = 0 := by
      rcases Nat.eq_zero_or_pos rank with rfl | hpos
      · decide
      · have := (Nat.log2_lt (by omega)).2 (show rank < 2 ^ 52 from h)
        omega
    have hval : halfEven (rank * 1) 1 = rank := halfEven_mul rank (by decide)
    simp only [h, if_true, Nat.div_one, hstep, Nat.pow_zero, Nat.mul_one] at hval ⊢
    omega
  · have hpos : 0 < rank / binadeSize := Nat.div_pos (Nat.le_of_not_lt h) (by decide)
    have hlog : ((binadeSize + rank % binadeSize) * 2 ^ (rank / binadeSize - 1)).log2 =
        52 + (rank / binadeSize - 1) := by
      have hlt : rank % binadeSize < binadeSize := Nat.mod_lt _ (by decide)
      generalize rank / binadeSize - 1 = k
      generalize rank % binadeSize = f at hlt
      have hp : 0 < 2 ^ k := Nat.two_pow_pos k
      rw [Nat.log2_eq_iff (Nat.ne_of_gt (Nat.mul_pos (by unfold binadeSize; omega) hp))]
      constructor
      · rw [Nat.pow_add]
        exact Nat.mul_le_mul_right _ (Nat.le_add_right ..)
      · rw [show 52 + k + 1 = 53 + k by omega, Nat.pow_add]
        exact Nat.mul_lt_mul_of_pos_right (by unfold binadeSize at hlt ⊢; omega) hp
    simp only [h, if_false, Nat.div_one, hlog, Nat.add_sub_cancel_left, Nat.one_mul]
    rw [halfEven_mul _ (Nat.two_pow_pos _)]
    have := Nat.div_add_mod rank binadeSize
    generalize rank / binadeSize = e at *
    obtain ⟨k, rfl⟩ : ∃ k, e = k + 1 := ⟨e - 1, by omega⟩
    rw [Nat.mul_add, Nat.mul_comm binadeSize k] at this
    rw [Nat.add_sub_cancel]
    omega

/-- Rounding keeps a magnitude. -/
theorem nearest_quanta (m : Magnitude) : nearest m.quanta 1 = m := by
  cases m with
  | mk rank h =>
    simp only [nearest, quanta, nearestRank_quantaAt, Nat.min_eq_left h]

end Magnitude

end Calculator
