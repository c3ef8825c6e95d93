import Mathlib
import Calculator.Magnitude

/-!
# Rounding a quotient

The whole number nearest to a quotient, and so the magnitude nearest to it, depends on the quotient
alone: a common factor of numerator and denominator makes no difference (`Magnitude.nearest_congr`).
A magnitude is known by its rank (`Magnitude.eq_of_rank_eq`).
-/

namespace Calculator.Magnitude

/-! ## Magnitudes by rank -/

theorem eq_of_rank_eq {m n : Magnitude} (h : m.rank = n.rank) : m = n := by
  cases m
  cases n
  cases h
  rfl

/-- Only zero is zero. -/
theorem isZero_iff {m : Magnitude} : m.isZero = true ↔ m = zero := by
  rw [isZero, beq_iff_eq]
  exact ⟨fun h => eq_of_rank_eq h, fun h => h ▸ rfl⟩

/-- Only infinity is infinite. -/
theorem isInfinite_iff {m : Magnitude} : m.isInfinite = true ↔ m = infinity := by
  rw [isInfinite, beq_iff_eq]
  exact ⟨fun h => eq_of_rank_eq h, fun h => h ▸ rfl⟩

theorem isInfinite_zero : zero.isInfinite = false := by decide

/-! ## Quotients -/

theorem halfEven_scale {k : Nat} (hk : 0 < k) (num den : Nat) :
    halfEven (k * num) (k * den) = halfEven num den := by
  have hbelow : 2 * (k * (num % den)) < k * den ↔ 2 * (num % den) < den := by
    rw [Nat.mul_left_comm]
    exact Nat.mul_lt_mul_left hk
  have habove : k * den < 2 * (k * (num % den)) ↔ den < 2 * (num % den) := by
    rw [Nat.mul_left_comm]
    exact Nat.mul_lt_mul_left hk
  simp only [halfEven, Nat.mul_div_mul_left _ _ hk, Nat.mul_mod_mul_left, hbelow, habove]

theorem nearestRank_scale {k : Nat} (hk : 0 < k) (num den : Nat) :
    nearestRank (k * num) (k * den) = nearestRank num den := by
  simp only [nearestRank, Nat.mul_div_mul_left _ _ hk, Nat.mul_assoc, halfEven_scale hk]

theorem nearest_scale {k : Nat} (hk : 0 < k) (num den : Nat) :
    nearest (k * num) (k * den) = nearest num den := by
  simp only [nearest, nearestRank_scale hk]

/-- Equal quotients are rounded to the same magnitude. -/
theorem nearest_congr {a b c d : Nat} (hb : 0 < b) (hd : 0 < d) (h : a * d = c * b) :
    nearest a b = nearest c d := by
  calc nearest a b = nearest (d * a) (d * b) := (nearest_scale hd a b).symm
    _ = nearest (b * c) (b * d) := by rw [Nat.mul_comm d a, h, Nat.mul_comm c b, Nat.mul_comm d b]
    _ = nearest c d := nearest_scale hb c d

end Calculator.Magnitude
