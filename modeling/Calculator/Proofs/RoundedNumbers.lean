import Mathlib
import Calculator.Proofs.NearestMagnitude

/-!
# Rounded numbers

A binary64 number is a rational number rounded to the nearest if no number is nearer, a tie is decided
by the even significand, and zeros and infinities are what is beyond the format (`Binary64.IsRounded`).
The nearest magnitude with a sign is such a number (`Binary64.isRounded_signed`). As extended real
numbers, rounded numbers have the order of the rational ones (`Binary64.signed_le`).
-/

namespace Calculator

-- Powers of natural numbers are those of the definitions.
attribute [local instance (high)] instPowNat

namespace Magnitude

theorem toRat_nonneg (m : Magnitude) : 0 ≤ m.toRat :=
  div_nonneg (Nat.cast_nonneg _) (Nat.cast_nonneg _)

theorem toRat_zero : zero.toRat = 0 := by
  rw [toRat, quanta, zero, quantaAt_of_lt binadeSize_pos, Nat.cast_zero, zero_div]

/-- The magnitude as an extended real number. -/
noncomputable def toEReal (m : Magnitude) : EReal :=
  if m.isInfinite then ⊤ else ((m.toRat : ℝ) : EReal)

theorem toEReal_nonneg (m : Magnitude) : 0 ≤ m.toEReal := by
  unfold toEReal
  split
  · exact le_top
  · exact_mod_cast m.toRat_nonneg

theorem toEReal_zero : zero.toEReal = 0 := by
  simp [toEReal, isInfinite_zero, toRat_zero]

theorem toEReal_mono {m n : Magnitude} (h : m.rank ≤ n.rank) : m.toEReal ≤ n.toEReal := by
  cases hn : n.isInfinite with
  | true => simp [toEReal, hn]
  | false =>
    have hm : m.isInfinite = false :=
      isInfinite_eq_false_iff.2 (Nat.lt_of_le_of_lt h (isInfinite_eq_false_iff.1 hn))
    have hquanta := quantaAt_cast_strictMono.monotone h
    have hle : m.toRat ≤ n.toRat := div_le_div_of_nonneg_right hquanta (Nat.cast_nonneg _)
    simp only [toEReal, hm, hn, Bool.false_eq_true, if_false]
    exact_mod_cast hle

end Magnitude

namespace Binary64

/-- The factor that a sign stands for. -/
def signFactor (negative : Bool) : ℚ := if negative then -1 else 1

theorem abs_signFactor (negative : Bool) : |signFactor negative| = 1 := by
  cases negative <;> simp [signFactor]

theorem abs_signFactor_mul (negative : Bool) (a : ℚ) : |signFactor negative * a| = |a| := by
  rw [abs_mul, abs_signFactor, one_mul]

theorem toRat?_eq_some_iff {negative : Bool} {m : Magnitude} {r : ℚ} :
    (signed negative m).toRat? = some r ↔
      m.isInfinite = false ∧ r = signFactor negative * m.toRat := by
  have hvalue : (signedQuanta negative m : ℚ) / quantaPerUnit = signFactor negative * m.toRat := by
    unfold signedQuanta signFactor Magnitude.toRat
    generalize quantaPerUnit = unit
    cases negative <;> simp [neg_div]
  rw [toRat?, hvalue]
  cases m.isInfinite <;> simp [eq_comm]

/-- The number as an extended real one, which "not a number" is not. -/
noncomputable def toEReal? : Binary64 → Option EReal
  | .nan => none
  | .signed negative m => some (if negative then -m.toEReal else m.toEReal)

/-- The significand, which "not a number" does not have. -/
def significand? : Binary64 → Option Nat
  | .nan => none
  | .signed _ m => some m.significand

/-- A number with a sign is a rational number rounded to the nearest, ties to the even significand.
What is too small is a zero with this sign, and what is too large an infinity. -/
structure IsRounded (negative : Bool) (q : ℚ) (x : Binary64) : Prop where
  sign : ∃ m, x = .signed negative m
  infinite_iff : x = .signed negative .infinity ↔ 2 ^ 1024 - 2 ^ 970 ≤ |q|
  zero_iff : x = .signed negative .zero ↔ |q| ≤ 1 / 2 ^ 1075
  dist_le : ∀ r, x.toRat? = some r →
    ∀ (y : Binary64) (s : ℚ), y.toRat? = some s → |r - q| ≤ |s - q|
  even : ∀ r, x.toRat? = some r →
    ∀ (y : Binary64) (s : ℚ), y.toRat? = some s → s ≠ r → |s - q| = |r - q| →
    ∃ n, x.significand? = some n ∧ n % 2 = 0

section Rounded

variable {negative : Bool} {a : ℚ} {m : Magnitude}

theorem dist_same_sign :
    |signFactor negative * m.toRat - signFactor negative * a| = |m.toRat - a| := by
  rw [← mul_sub, abs_signFactor_mul]

/-- A number of the other sign is not nearer. -/
theorem dist_le_dist (ha : 0 ≤ a) (other : Bool) :
    |m.toRat - a| ≤ |signFactor other * m.toRat - signFactor negative * a| := by
  have hle := abs_abs_sub_abs_le (signFactor other * m.toRat) (signFactor negative * a)
  rwa [abs_signFactor_mul, abs_signFactor_mul, abs_of_nonneg m.toRat_nonneg,
    abs_of_nonneg ha] at hle

/-- The number of the other sign is as near only if it is zero or the number to be rounded is. -/
theorem eq_zero_of_opposite (ha : 0 ≤ a) {other : Bool}
    (hne : signFactor other * m.toRat ≠ signFactor negative * m.toRat)
    (hdist : |signFactor other * m.toRat - signFactor negative * a| = |m.toRat - a|) : a = 0 := by
  have hopposite : signFactor other = -signFactor negative := by
    cases negative <;> cases other <;> simp_all [signFactor]
  have hsum : signFactor other * m.toRat - signFactor negative * a =
      signFactor other * (m.toRat + a) := by
    rw [hopposite]
    ring
  have hm : m.toRat ≠ 0 := by
    intro hm
    exact hne (by rw [hm, mul_zero, mul_zero])
  rw [hsum, abs_signFactor_mul] at hdist
  rcases abs_eq_abs.1 hdist with h | h
  · linarith
  · exact absurd (by linarith) hm

/-- The magnitude that an absolute value is rounded to, with the sign. -/
theorem isRounded_signed (ha : 0 ≤ a) (h : m.Rounds a) :
    IsRounded negative (signFactor negative * a) (.signed negative m) := by
  have hq : |signFactor negative * a| = a := by rw [abs_signFactor_mul, abs_of_nonneg ha]
  refine ⟨⟨m, rfl⟩, ?_, ?_, ?_, ?_⟩
  · rw [hq, ← h.infinite_iff, Magnitude.isInfinite_iff, signed.injEq, eq_self, true_and]
  · rw [hq, ← h.zero_iff, signed.injEq, eq_self, true_and]
  · intro r hr y s hs
    cases y with
    | nan => cases hs
    | signed other n =>
      rw [toRat?_eq_some_iff] at hr hs
      rw [hr.2, hs.2, dist_same_sign]
      exact (h.dist_le hr.1 n).trans (dist_le_dist ha other)
  · intro r hr y s hs hne hdist
    refine ⟨m.significand, rfl, ?_⟩
    cases y with
    | nan => cases hs
    | signed other n =>
      rw [toRat?_eq_some_iff] at hr hs
      rw [hr.2, hs.2, dist_same_sign] at hdist
      by_cases hn : n = m
      · subst hn
        rw [hr.2, hs.2] at hne
        obtain rfl : a = 0 := eq_zero_of_opposite ha hne hdist
        obtain rfl : n = .zero := h.zero_iff.2 (by positivity)
        decide
      · refine h.even hr.1 n hn (le_antisymm ?_ (h.dist_le hr.1 n))
        exact (dist_le_dist ha other).trans hdist.le

end Rounded

/-- The first of the 64 bits is the sign. -/
theorem sign_bit (negative : Bool) (m : Magnitude) :
    ∃ bits, (signed negative m).bits? = some bits ∧
      (2 ^ 63 ≤ bits.toNat ↔ negative = true) := by
  have hinfinite : infiniteRank < 2 ^ 63 := by decide
  have hrank : m.rank < 2 ^ 63 := Nat.lt_of_le_of_lt m.rank_le hinfinite
  have hsize : (if negative then 2 ^ 63 else 0) + m.rank < UInt64.size := by
    have hpow : UInt64.size = 2 ^ 64 := rfl
    split <;> omega
  refine ⟨_, rfl, ?_⟩
  rw [UInt64.toNat_ofNat_of_lt' hsize]
  cases negative
  · simpa using hrank
  · simp

/-- Rounding keeps the order of numbers with signs. -/
theorem signed_le {negative negative' : Bool} {a b : ℚ} {m n : Magnitude} (ha : 0 ≤ a)
    (hb : 0 ≤ b) (hm : m.Rounds a) (hn : n.Rounds b)
    (h : signFactor negative * a ≤ signFactor negative' * b) :
    ∃ u v, (signed negative m).toEReal? = some u ∧ (signed negative' n).toEReal? = some v ∧
      u ≤ v := by
  refine ⟨_, _, rfl, rfl, ?_⟩
  have hmnonneg := m.toEReal_nonneg
  have hnnonneg := n.toEReal_nonneg
  cases negative <;> cases negative' <;>
    simp only [signFactor, Bool.false_eq_true, if_false, if_true, one_mul, neg_one_mul] at h ⊢
  · exact Magnitude.toEReal_mono (hm.rank_le hn h)
  · -- Only zero is below a number of the other sign, and it is rounded to a zero.
    have hzero : a = 0 := by linarith
    have hzero' : b = 0 := by linarith
    subst hzero hzero'
    obtain rfl : m = .zero := hm.zero_iff.2 (by positivity)
    obtain rfl : n = .zero := hn.zero_iff.2 (by positivity)
    rw [Magnitude.toEReal_zero, neg_zero]
  · have hneg : -m.toEReal ≤ 0 := by simpa using hmnonneg
    exact hneg.trans hnnonneg
  · rw [EReal.neg_le_neg_iff]
    exact Magnitude.toEReal_mono (hn.rank_le hm (neg_le_neg_iff.1 h))

end Binary64

end Calculator
