import Mathlib
import Calculator.Proofs.Rounding
import Calculator.Binary64

/-!
# Whole numbers as binary64 numbers

Every whole number up to 2 ^ 53 is the value of a binary64 number (`Binary64.toRat?_ofNat`), since a
significand has that many bits. Sums, differences, products and halves that are such numbers are
found without rounding, and the larger of two is the larger one (`Binary64.add_ofNat` and the lemmas
after it).
-/

namespace Calculator

-- Powers are those of natural numbers, as in the definitions.
attribute [local instance (high)] instPowNat

namespace Magnitude

/-! ## Quanta of ranks -/

theorem binadeSize_pos : 0 < binadeSize := Nat.two_pow_pos 52

theorem quantaAt_of_lt {rank : Nat} (h : rank < binadeSize) : quantaAt rank = rank := by
  rw [quantaAt, if_pos h]

/-- The fractions of one exponent are as many steps above its first magnitude. -/
theorem quantaAt_binade (exponent : Nat) {fraction : Nat} (h : fraction < binadeSize) :
    quantaAt ((exponent + 1) * binadeSize + fraction) =
      (binadeSize + fraction) * 2 ^ exponent := by
  have hge : binadeSize ≤ (exponent + 1) * binadeSize := Nat.le_mul_of_pos_left _ (by omega)
  have hmod : ((exponent + 1) * binadeSize + fraction) % binadeSize = fraction := by
    rw [Nat.mul_comm, Nat.mul_add_mod, Nat.mod_eq_of_lt h]
  have hdiv : ((exponent + 1) * binadeSize + fraction) / binadeSize = exponent + 1 := by
    rw [Nat.mul_comm, Nat.mul_add_div binadeSize_pos, Nat.div_eq_of_lt h, Nat.add_zero]
  rw [quantaAt, if_neg (by omega), hmod, hdiv, Nat.add_sub_cancel]

theorem exists_binade {rank : Nat} (h : binadeSize ≤ rank) :
    ∃ exponent fraction, fraction < binadeSize ∧
      rank = (exponent + 1) * binadeSize + fraction := by
  obtain ⟨exponent, hexponent⟩ := Nat.exists_eq_add_of_lt (Nat.div_pos h binadeSize_pos)
  refine ⟨exponent, rank % binadeSize, Nat.mod_lt _ binadeSize_pos, ?_⟩
  rw [Nat.zero_add] at hexponent
  rw [← hexponent, Nat.mul_comm, Nat.div_add_mod]

theorem quantaAt_lt_succ (rank : Nat) : quantaAt rank < quantaAt (rank + 1) := by
  have hpos := binadeSize_pos
  by_cases hsub : rank < binadeSize
  · rw [quantaAt_of_lt hsub]
    by_cases hlast : rank + 1 < binadeSize
    · rw [quantaAt_of_lt hlast]
      omega
    · have hfirst := quantaAt_binade 0 hpos
      rw [show rank + 1 = (0 + 1) * binadeSize + 0 by omega, hfirst]
      omega
  · obtain ⟨exponent, fraction, hfraction, rfl⟩ := exists_binade (Nat.le_of_not_lt hsub)
    have hpow : 0 < 2 ^ exponent := Nat.two_pow_pos exponent
    rw [quantaAt_binade exponent hfraction]
    by_cases hlast : fraction + 1 < binadeSize
    · rw [Nat.add_assoc, quantaAt_binade exponent hlast]
      exact Nat.mul_lt_mul_of_pos_right (by omega) hpow
    · -- The last fraction is followed by the first one of the next exponent.
      have hnext : (exponent + 1) * binadeSize + fraction + 1 =
          (exponent + 1 + 1) * binadeSize + 0 := by
        rw [Nat.succ_mul (exponent + 1)]
        omega
      rw [hnext, quantaAt_binade (exponent + 1) hpos, Nat.pow_succ', ← Nat.mul_assoc]
      exact Nat.mul_lt_mul_of_pos_right (by omega) hpow

/-- A magnitude of a higher rank has more quanta. -/
theorem quantaAt_strictMono : StrictMono quantaAt := strictMono_nat_of_lt_succ quantaAt_lt_succ

/-- The rank of a significand of 53 bits, in steps of an exponent; the significand after the last one
starts the next exponent. -/
theorem quantaAt_step {step significand : Nat} (h : significand ≤ 2 * binadeSize)
    (hstep : step = 0 ∨ binadeSize ≤ significand) :
    quantaAt (step * binadeSize + significand) = significand * 2 ^ step := by
  have hpos := binadeSize_pos
  by_cases hlead : significand < binadeSize
  · obtain rfl : step = 0 := by omega
    rw [Nat.zero_mul, Nat.zero_add, quantaAt_of_lt hlead, Nat.pow_zero, Nat.mul_one]
  · by_cases hlast : significand = 2 * binadeSize
    · have hnext : step * binadeSize + significand = (step + 1 + 1) * binadeSize + 0 := by
        rw [hlast]
        ring
      rw [hnext, quantaAt_binade (step + 1) hpos, hlast, Nat.pow_succ]
      ring
    · have hsame : step * binadeSize + significand =
          (step + 1) * binadeSize + (significand - binadeSize) := by
        rw [Nat.succ_mul]
        omega
      rw [hsame, quantaAt_binade step (by omega), Nat.add_sub_cancel' (by omega)]

/-- A significand, moved up by any number of bits, is the number of quanta of some rank: if its leading
bit is missing, it is doubled and moved up by one bit less. -/
theorem exists_quantaAt {significand : Nat} (h : significand ≤ 2 * binadeSize) (step : Nat) :
    ∃ rank, quantaAt rank = significand * 2 ^ step := by
  induction step generalizing significand with
  | zero => exact ⟨_, quantaAt_step h (.inl rfl)⟩
  | succ step ih =>
    by_cases hlead : significand < binadeSize
    · obtain ⟨rank, hrank⟩ := ih (show significand * 2 ≤ 2 * binadeSize by omega)
      exact ⟨rank, by rw [hrank, Nat.pow_succ', Nat.mul_assoc]⟩
    · exact ⟨_, quantaAt_step h (.inr (Nat.le_of_not_lt hlead))⟩

/-- So is the number of quanta of a finite magnitude, if it is not moved up beyond the exponents. -/
theorem exists_quanta {significand step : Nat} (h : significand ≤ 2 * binadeSize)
    (hstep : step + 1 < 2046) :
    ∃ m : Magnitude, m.isInfinite = false ∧ m.quanta = significand * 2 ^ step := by
  obtain ⟨rank, hrank⟩ := exists_quantaAt h step
  have hlt : rank < infiniteRank := by
    obtain ⟨last, hlast, hinfinite⟩ : ∃ last, step + 1 < last ∧
        infiniteRank = (last + 1) * binadeSize + 0 := ⟨2046, hstep, rfl⟩
    rw [← quantaAt_strictMono.lt_iff_lt, hrank, hinfinite, quantaAt_binade last binadeSize_pos]
    calc significand * 2 ^ step ≤ 2 * binadeSize * 2 ^ step := Nat.mul_le_mul_right _ h
      _ = binadeSize * 2 ^ (step + 1) := by rw [Nat.pow_succ', Nat.mul_comm 2, Nat.mul_assoc]
      _ < binadeSize * 2 ^ last :=
        Nat.mul_lt_mul_of_pos_left (Nat.pow_lt_pow_right (by decide) hlast) binadeSize_pos
  exact ⟨⟨rank, Nat.le_of_lt hlt⟩, beq_eq_false_iff_ne.2 (Nat.ne_of_lt hlt), hrank⟩

/-! ## Whole numbers -/

/-- The magnitude nearest to a whole number. -/
def whole (n : Nat) : Magnitude := nearest (n * Binary64.quantaPerUnit) 1

theorem whole_spec {n : Nat} (h : n ≤ 2 ^ 53) :
    (whole n).isInfinite = false ∧ (whole n).quanta = n * Binary64.quantaPerUnit := by
  obtain ⟨step, hstep, hunit⟩ : ∃ step, step + 1 < 2046 ∧ Binary64.quantaPerUnit = 2 ^ step :=
    ⟨1074, by decide, rfl⟩
  obtain ⟨m, hfinite, hquanta⟩ := exists_quanta h hstep
  rw [← hunit] at hquanta
  have heq : whole n = m := by rw [whole, ← hquanta, nearest_quanta]
  rw [heq]
  exact ⟨hfinite, hquanta⟩

end Magnitude

namespace Binary64

/-- The exact value of a number, unless it is infinite or "not a number". -/
def toRat? : Binary64 → Option ℚ
  | .nan => none
  | .signed negative m =>
    if m.isInfinite then none else some (signedQuanta negative m / quantaPerUnit)

theorem quantaPerUnit_pos : 0 < quantaPerUnit := by decide +kernel

theorem ofNat_eq (n : Nat) : ofNat n = .signed false (.whole n) := rfl

section

variable {a b : Nat} (ha : a ≤ 2 ^ 53) (hb : b ≤ 2 ^ 53)
include ha

/-- A whole number of at most 53 bits is not rounded. -/
theorem toRat?_ofNat : (ofNat a).toRat? = some (a : ℚ) := by
  obtain ⟨hfinite, hquanta⟩ := Magnitude.whole_spec ha
  have hunit : (quantaPerUnit : ℚ) ≠ 0 := Nat.cast_ne_zero.2 (Nat.ne_of_gt quantaPerUnit_pos)
  simp only [ofNat_eq, toRat?, signedQuanta, hfinite, hquanta, Bool.false_eq_true, if_false]
  push_cast
  rw [mul_div_cancel_right₀ _ hunit]

include hb

theorem add_ofNat : ofNat a + ofNat b = ofNat (a + b) := by
  obtain ⟨hfinite, hquanta⟩ := Magnitude.whole_spec ha
  obtain ⟨hfinite', hquanta'⟩ := Magnitude.whole_spec hb
  show add (ofNat a) (ofNat b) = _
  have hsum : ((a * quantaPerUnit : Nat) : Int) + ((b * quantaPerUnit : Nat) : Int) =
      ((a + b) * quantaPerUnit : Nat) := by
    rw [Nat.add_mul, Int.natCast_add]
  simp only [ofNat_eq, add, signedQuanta, hfinite, hfinite', hquanta, hquanta', hsum,
    Bool.false_eq_true, if_false, Int.natAbs_natCast]
  by_cases hzero : (a + b) * quantaPerUnit = 0
  · rw [if_pos (by exact_mod_cast hzero), Magnitude.whole, hzero]
    rfl
  · rw [if_neg (by exact_mod_cast hzero), decide_eq_false (by omega)]
    rfl

theorem sub_ofNat (hle : b ≤ a) : ofNat a - ofNat b = ofNat (a - b) := by
  obtain ⟨hfinite, hquanta⟩ := Magnitude.whole_spec ha
  obtain ⟨hfinite', hquanta'⟩ := Magnitude.whole_spec hb
  show sub (ofNat a) (ofNat b) = _
  rw [sub]
  have hdifference : ((a * quantaPerUnit : Nat) : Int) + -((b * quantaPerUnit : Nat) : Int) =
      ((a - b) * quantaPerUnit : Nat) := by
    rw [Nat.sub_mul, Int.natCast_sub (Nat.mul_le_mul_right _ hle), Int.sub_eq_add_neg]
  simp only [ofNat_eq, neg, add, signedQuanta, hfinite, hfinite', hquanta, hquanta', hdifference,
    Bool.false_eq_true, if_false, Int.natAbs_natCast, Bool.not_false, if_true]
  by_cases hzero : (a - b) * quantaPerUnit = 0
  · rw [if_pos (by exact_mod_cast hzero), Magnitude.whole, hzero]
    rfl
  · rw [if_neg (by exact_mod_cast hzero), decide_eq_false (by omega)]
    rfl

theorem mul_ofNat : ofNat a * ofNat b = ofNat (a * b) := by
  obtain ⟨hfinite, hquanta⟩ := Magnitude.whole_spec ha
  obtain ⟨hfinite', hquanta'⟩ := Magnitude.whole_spec hb
  show mul (ofNat a) (ofNat b) = _
  have hproduct : Magnitude.nearest (a * quantaPerUnit * (b * quantaPerUnit)) quantaPerUnit =
      .whole (a * b) :=
    Magnitude.nearest_congr quantaPerUnit_pos Nat.one_pos (by ring)
  simp only [ofNat_eq, mul, hfinite, hfinite', hquanta, hquanta', hproduct, Bool.or_self,
    Bool.false_eq_true, if_false, bne_self_eq_false]

/-- The larger of two numbers is the one of the larger magnitude. -/
theorem max_ofNat : (ofNat a).max (ofNat b) = ofNat (Max.max a b) := by
  obtain ⟨-, hquanta⟩ := Magnitude.whole_spec ha
  obtain ⟨-, hquanta'⟩ := Magnitude.whole_spec hb
  have hrank : (Magnitude.whole a).rank < (Magnitude.whole b).rank ↔ a < b := by
    rw [← Magnitude.quantaAt_strictMono.lt_iff_lt]
    show (Magnitude.whole a).quanta < (Magnitude.whole b).quanta ↔ _
    rw [hquanta, hquanta', Nat.mul_lt_mul_right quantaPerUnit_pos]
  simp only [ofNat_eq, max, Bool.false_eq_true, if_false, Int.ofNat_lt, hrank]
  by_cases hlt : a < b
  · rw [if_pos hlt, Nat.max_eq_right (Nat.le_of_lt hlt)]
  · rw [if_neg hlt, Nat.max_eq_left (Nat.le_of_not_lt hlt)]

end

/-- A number divided by one of its factors. -/
theorem div_ofNat {a b : Nat} (h : a * b ≤ 2 ^ 53) (ha : 0 < a) (hb : 0 < b) :
    ofNat (a * b) / ofNat b = ofNat a := by
  obtain ⟨hfinite, hquanta⟩ := Magnitude.whole_spec h
  obtain ⟨hfinite', hquanta'⟩ :=
    Magnitude.whole_spec (Nat.le_trans (Nat.le_mul_of_pos_left b ha) h)
  have hpos : 0 < b * quantaPerUnit := Nat.mul_pos hb quantaPerUnit_pos
  have hzero : (Magnitude.whole b).isZero = false := by
    rw [Magnitude.isZero, beq_eq_false_iff_ne]
    intro hrank
    have hnone : (Magnitude.whole b).quanta = 0 := by
      rw [Magnitude.quanta, hrank, Magnitude.quantaAt_of_lt Magnitude.binadeSize_pos]
    omega
  show div (ofNat (a * b)) (ofNat b) = _
  have hquotient : Magnitude.nearest (a * b * quantaPerUnit * quantaPerUnit) (b * quantaPerUnit) =
      .whole a :=
    Magnitude.nearest_congr hpos Nat.one_pos (by ring)
  simp only [ofNat_eq, div, hfinite, hfinite', hzero, hquanta, hquanta', hquotient,
    Bool.false_eq_true, if_false, bne_self_eq_false]

end Binary64

end Calculator
