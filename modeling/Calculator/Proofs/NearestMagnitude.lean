import Mathlib
import Calculator.Proofs.WholeNumbers

/-!
# The nearest magnitude

Rounding a quotient of quanta finds the rank below it and takes this rank or the next one, whichever
is on the quotient's side of the middle between them (`Magnitude.isNearest_nearestRank`). As quanta
increase with the rank, no other rank is nearer. In units this says that the magnitude is the number
rounded to the nearest with ties to the even significand (`Magnitude.rounds_nearest`), which
determines the magnitude (`Magnitude.Rounds.unique`) and keeps the order (`Magnitude.Rounds.rank_le`).
-/

namespace Calculator

-- Powers of natural numbers are those of the definitions.
attribute [local instance (high)] instPowNat

/-! ## The nearer of two numbers -/

section Nearer

variable {a b x : ℚ}

theorem nearer_upper_iff (h : a < b) : |b - x| ≤ |a - x| ↔ (a + b) / 2 ≤ x := by
  have hfactor : (a - x) ^ 2 - (b - x) ^ 2 = 2 * (b - a) * (x - (a + b) / 2) := by ring
  rw [← sq_le_sq, ← sub_nonneg, hfactor, mul_nonneg_iff_of_pos_left (by linarith), sub_nonneg]

theorem nearer_lower_iff (h : a < b) : |a - x| ≤ |b - x| ↔ x ≤ (a + b) / 2 := by
  have hfactor : (b - x) ^ 2 - (a - x) ^ 2 = 2 * (b - a) * ((a + b) / 2 - x) := by ring
  rw [← sq_le_sq, ← sub_nonneg, hfactor, mul_nonneg_iff_of_pos_left (by linarith), sub_nonneg]

end Nearer

namespace Magnitude

/-! ## The ranks around a quotient -/

/-- How many bits a quotient has beyond those of a significand. -/
def stepOf (num den : Nat) : Nat := (num / den).log2 - 52

/-- The quotient in steps of its exponent, rounded down. -/
def significandBelow (num den : Nat) : Nat := num / (den * 2 ^ stepOf num den)

/-- The rank below a quotient of quanta. -/
def rankBelow (num den : Nat) : Nat :=
  stepOf num den * binadeSize + significandBelow num den

theorem significandBelow_spec (num den : Nat) :
    significandBelow num den < 2 * binadeSize ∧
      (stepOf num den = 0 ∨ binadeSize ≤ significandBelow num den) := by
  have hbinade : binadeSize = 2 ^ 52 := rfl
  have hdouble : 2 * binadeSize = 2 ^ 53 := by rw [hbinade, ← Nat.pow_succ']
  unfold significandBelow
  rw [← Nat.div_div_eq_div_mul, hdouble, hbinade]
  unfold stepOf
  generalize num / den = n
  by_cases hsmall : n < 2 ^ 53
  · have hstep : n.log2 - 52 = 0 := by
      rcases Nat.eq_zero_or_pos n with rfl | hpos
      · rfl
      · have := (Nat.log2_lt hpos.ne').2 hsmall
        omega
    rw [hstep, Nat.pow_zero, Nat.div_one]
    exact ⟨hsmall, .inl rfl⟩
  · have hne : n ≠ 0 := by
      rintro rfl
      exact hsmall (Nat.two_pow_pos 53)
    have hlog : 53 ≤ n.log2 := (Nat.le_log2 hne).2 (Nat.le_of_not_lt hsmall)
    obtain ⟨step, hstep⟩ : ∃ step, n.log2 = 52 + step := ⟨n.log2 - 52, by omega⟩
    have hlow : 2 ^ 52 * 2 ^ step ≤ n := by
      rw [← Nat.pow_add, ← hstep]
      exact Nat.log2_self_le hne
    have hhigh : n < 2 ^ 53 * 2 ^ step := by
      rw [← Nat.pow_add, show 53 + step = n.log2 + 1 by omega]
      exact Nat.lt_log2_self
    rw [hstep, Nat.add_sub_cancel_left]
    exact ⟨Nat.div_lt_of_lt_mul (Nat.mul_comm _ _ ▸ hhigh),
      .inr ((Nat.le_div_iff_mul_le (Nat.two_pow_pos step)).2 hlow)⟩

theorem quantaAt_rankBelow (num den : Nat) :
    quantaAt (rankBelow num den) = significandBelow num den * 2 ^ stepOf num den := by
  obtain ⟨hlt, hstep⟩ := significandBelow_spec num den
  exact quantaAt_step hlt.le hstep

theorem quantaAt_rankBelow_succ (num den : Nat) :
    quantaAt (rankBelow num den + 1) = (significandBelow num den + 1) * 2 ^ stepOf num den := by
  obtain ⟨hlt, hstep⟩ := significandBelow_spec num den
  rw [rankBelow, Nat.add_assoc]
  exact quantaAt_step (Nat.succ_le_of_lt hlt) (hstep.imp_right Nat.le_succ_of_le)

/-! ## Half way between two ranks -/

/-- The number of quanta half way between a rank and the next one. -/
def middle (rank : Nat) : ℚ := (quantaAt rank + quantaAt (rank + 1)) / 2

theorem quantaAt_cast_strictMono : StrictMono fun rank => (quantaAt rank : ℚ) :=
  Nat.strictMono_cast.comp quantaAt_strictMono

theorem quantaAt_lt_middle (rank : Nat) : (quantaAt rank : ℚ) < middle rank := by
  have hlt := quantaAt_cast_strictMono (Nat.lt_succ_self rank)
  unfold middle
  linarith

theorem middle_lt_quantaAt (rank : Nat) : middle rank < quantaAt (rank + 1) := by
  have hlt := quantaAt_cast_strictMono (Nat.lt_succ_self rank)
  unfold middle
  linarith

theorem middle_strictMono : StrictMono middle :=
  strictMono_nat_of_lt_succ fun rank =>
    (middle_lt_quantaAt rank).trans (quantaAt_lt_middle (rank + 1))

theorem middle_le_mean {lower upper : Nat} (h : lower < upper) :
    middle lower ≤ ((quantaAt lower : ℚ) + quantaAt upper) / 2 := by
  have hle := quantaAt_cast_strictMono.monotone (Nat.succ_le_of_lt h)
  unfold middle
  linarith

theorem mean_le_middle {lower upper : Nat} (h : lower < upper + 1) :
    ((quantaAt lower : ℚ) + quantaAt (upper + 1)) / 2 ≤ middle upper := by
  have hle := quantaAt_cast_strictMono.monotone (Nat.le_of_lt_succ h)
  unfold middle
  linarith

section Quotient

variable (num : Nat) {den : Nat} (hden : 0 < den)
include hden

theorem quantaAt_rankBelow_le : (quantaAt (rankBelow num den) : ℚ) ≤ num / den := by
  have hfloor : significandBelow num den * (den * 2 ^ stepOf num den) ≤ num :=
    Nat.div_mul_le_self ..
  rw [le_div_iff₀ (Nat.cast_pos.2 hden), quantaAt_rankBelow, ← Nat.cast_mul, Nat.cast_le,
    Nat.mul_assoc, Nat.mul_comm _ den]
  exact hfloor

theorem lt_quantaAt_rankBelow_succ : (num : ℚ) / den < quantaAt (rankBelow num den + 1) := by
  have hpos : 0 < den * 2 ^ stepOf num den := Nat.mul_pos hden (Nat.two_pow_pos _)
  have hfloor : num < (significandBelow num den + 1) * (den * 2 ^ stepOf num den) :=
    (Nat.div_lt_iff_lt_mul hpos).1 (Nat.lt_succ_self _)
  rw [div_lt_iff₀ (Nat.cast_pos.2 hden), quantaAt_rankBelow_succ, ← Nat.cast_mul, Nat.cast_lt,
    Nat.mul_assoc, Nat.mul_comm _ den]
  exact hfloor

/-- The middle of the two ranks around a quotient is half a step above the lower one. -/
theorem middle_rankBelow_cmp :
    ((num : ℚ) / den ≤ middle (rankBelow num den) ↔
        2 * num ≤ (2 * significandBelow num den + 1) * (den * 2 ^ stepOf num den)) ∧
      (middle (rankBelow num den) ≤ (num : ℚ) / den ↔
        (2 * significandBelow num den + 1) * (den * 2 ^ stepOf num den) ≤ 2 * num) := by
  have hden' : (0 : ℚ) < den := Nat.cast_pos.2 hden
  have hmiddle : middle (rankBelow num den) =
      ((2 * significandBelow num den + 1) * (den * 2 ^ stepOf num den) : Nat) / (2 * den) := by
    rw [middle, quantaAt_rankBelow, quantaAt_rankBelow_succ]
    push_cast
    field_simp
    ring
  have hquotient : (num : ℚ) / den = (2 * num : Nat) / (2 * den) := by
    push_cast
    rw [mul_div_mul_left _ _ two_ne_zero]
  rw [hmiddle, hquotient, div_le_div_iff_of_pos_right (by positivity),
    div_le_div_iff_of_pos_right (by positivity), Nat.cast_le, Nat.cast_le]
  exact ⟨Iff.rfl, Iff.rfl⟩

end Quotient

/-! ## The nearest rank -/

/-- A half is rounded to the even neighbour, and anything else to the nearer one. -/
theorem halfEven_spec (num den : Nat) :
    (halfEven num den = num / den ∧ 2 * num ≤ (2 * (num / den) + 1) * den ∨
      halfEven num den = num / den + 1 ∧ (2 * (num / den) + 1) * den ≤ 2 * num) ∧
    (2 * num = (2 * (num / den) + 1) * den → halfEven num den % 2 = 0) := by
  have hdivision := Nat.div_add_mod num den
  have hmiddle : (2 * (num / den) + 1) * den = 2 * (den * (num / den)) + den := by ring
  rw [hmiddle]
  unfold halfEven
  dsimp only
  split
  · omega
  · split <;> omega

/-- A rank is the nearest one to a number of quanta: the number is between the middles to the two
neighbours, and at neither of them if the rank is odd. -/
structure IsNearest (x : ℚ) (rank : Nat) : Prop where
  le_middle : x ≤ middle rank
  middle_le : ∀ below < rank, middle below ≤ x
  even_of_eq : (∃ below, (below = rank ∨ below + 1 = rank) ∧ x = middle below) → rank % 2 = 0

theorem isNearest_nearestRank (num : Nat) {den : Nat} (hden : 0 < den) :
    IsNearest (num / den) (nearestRank num den) := by
  obtain ⟨hle, hge⟩ := middle_rankBelow_cmp num hden
  obtain ⟨hcases, htie⟩ := halfEven_spec num (den * 2 ^ stepOf num den)
  have hlower := quantaAt_rankBelow_le num hden
  have hupper := lt_quantaAt_rankBelow_succ num hden
  have hrank : nearestRank num den =
      stepOf num den * binadeSize + halfEven num (den * 2 ^ stepOf num den) := rfl
  have hparity : nearestRank num den % 2 = halfEven num (den * 2 ^ stepOf num den) % 2 := by
    have hbinade : binadeSize % 2 = 0 := by decide
    rw [hrank, Nat.add_mod, Nat.mul_mod, hbinade, Nat.mul_zero, Nat.zero_mod, Nat.zero_add,
      Nat.mod_mod]
  have heven (h : (num : ℚ) / den = middle (rankBelow num den)) : nearestRank num den % 2 = 0 := by
    rw [hparity]
    exact htie (Nat.le_antisymm (hle.1 h.le) (hge.1 h.ge))
  rcases hcases with ⟨hfloor, hmiddle⟩ | ⟨hfloor, hmiddle⟩
  · -- Rounded down: the quotient is not below its rank, so it is above all lower middles.
    have hbelow : nearestRank num den = rankBelow num den := by
      rw [hrank, hfloor, rankBelow, significandBelow]
    rw [hbelow] at heven ⊢
    have hbetween {below : Nat} (h : below < rankBelow num den) : middle below < (num : ℚ) / den :=
      calc middle below < quantaAt (below + 1) := middle_lt_quantaAt below
        _ ≤ quantaAt (rankBelow num den) := quantaAt_cast_strictMono.monotone h
        _ ≤ num / den := hlower
    refine ⟨hle.2 hmiddle, fun below h => (hbetween h).le, ?_⟩
    rintro ⟨below, rfl | h, hx⟩
    · exact heven hx
    · exact absurd hx (hbetween (by omega)).ne'
  · -- Rounded up: the quotient is below the next rank, so it is below the middle above that.
    have habove : nearestRank num den = rankBelow num den + 1 := by
      rw [hrank, hfloor, rankBelow, significandBelow, Nat.add_assoc]
    rw [habove] at heven ⊢
    have hbetween : (num : ℚ) / den < middle (rankBelow num den + 1) :=
      hupper.trans (quantaAt_lt_middle _)
    refine ⟨hbetween.le, fun below h => ?_, ?_⟩
    · calc middle below ≤ middle (rankBelow num den) :=
          middle_strictMono.monotone (Nat.le_of_lt_succ h)
        _ ≤ num / den := hge.2 hmiddle
    · rintro ⟨below, rfl | h, hx⟩
      · exact absurd hx hbetween.ne
      · obtain rfl : below = rankBelow num den := Nat.succ_injective h
        exact heven hx

namespace IsNearest

variable {x : ℚ} {rank : Nat}

/-- No other rank is nearer. -/
theorem dist_le (h : IsNearest x rank) (other : Nat) :
    |(quantaAt rank : ℚ) - x| ≤ |(quantaAt other : ℚ) - x| := by
  rcases Nat.lt_trichotomy other rank with hlt | rfl | hlt
  · obtain ⟨below, rfl⟩ := Nat.exists_eq_succ_of_ne_zero (Nat.ne_zero_of_lt hlt)
    rw [nearer_upper_iff (quantaAt_cast_strictMono hlt)]
    exact (mean_le_middle hlt).trans (h.middle_le below (Nat.lt_succ_self below))
  · rfl
  · rw [nearer_lower_iff (quantaAt_cast_strictMono hlt)]
    exact h.le_middle.trans (middle_le_mean hlt)

/-- If another rank is as near, the rank is even. -/
theorem even_of_dist_eq (h : IsNearest x rank) {other : Nat} (hne : other ≠ rank)
    (hdist : |(quantaAt other : ℚ) - x| = |(quantaAt rank : ℚ) - x|) : rank % 2 = 0 := by
  rcases Nat.lt_or_gt_of_ne hne with hlt | hlt
  · obtain ⟨below, rfl⟩ := Nat.exists_eq_succ_of_ne_zero (Nat.ne_zero_of_lt hlt)
    have hx := (nearer_lower_iff (quantaAt_cast_strictMono hlt)).1 hdist.le
    exact h.even_of_eq ⟨below, .inr rfl,
      (hx.trans (mean_le_middle hlt)).antisymm (h.middle_le below (Nat.lt_succ_self below))⟩
  · have hx := (nearer_upper_iff (quantaAt_cast_strictMono hlt)).1 hdist.le
    exact h.even_of_eq ⟨rank, .inl rfl, h.le_middle.antisymm ((middle_le_mean hlt).trans hx)⟩

/-- The middle above an even rank is rounded down. -/
theorem le_iff_of_even (h : IsNearest x rank) {lower : Nat} (heven : lower % 2 = 0) :
    rank ≤ lower ↔ x ≤ middle lower := by
  constructor
  · exact fun hle => h.le_middle.trans (middle_strictMono.monotone hle)
  · intro hx
    by_contra hlt
    have hmiddle : x = middle lower := hx.antisymm (h.middle_le lower (Nat.lt_of_not_le hlt))
    have hnext : lower + 1 = rank := by
      by_contra hne
      have habove := h.middle_le (lower + 1) (by omega)
      rw [hmiddle] at habove
      exact absurd habove (middle_strictMono (Nat.lt_succ_self lower)).not_ge
    have hrank := h.even_of_eq ⟨lower, .inr hnext, hmiddle⟩
    omega

/-- The middle above an odd rank is rounded up. -/
theorem lt_iff_of_odd (h : IsNearest x rank) {lower : Nat} (hodd : lower % 2 = 1) :
    lower < rank ↔ middle lower ≤ x := by
  constructor
  · exact h.middle_le lower
  · intro hx
    by_contra hge
    have hmiddle : middle rank ≤ middle lower := middle_strictMono.monotone (Nat.le_of_not_lt hge)
    obtain rfl : rank = lower :=
      middle_strictMono.injective (hmiddle.antisymm (hx.trans h.le_middle))
    have hrank := h.even_of_eq ⟨rank, .inl rfl, h.le_middle.antisymm hx⟩
    omega

end IsNearest

/-- Half a quantum is still rounded to zero. -/
theorem middle_zero : middle 0 = 1 / 2 := by
  rw [middle, quantaAt_of_lt binadeSize_pos, quantaAt_of_lt (by decide)]
  norm_num

/-- The last finite magnitude is `2 ^ 1024 - 2 ^ 971`, and infinity follows it at `2 ^ 1024`. -/
theorem middle_last :
    middle (infiniteRank - 1) = (2 ^ 1024 - 2 ^ 970) * Binary64.quantaPerUnit := by
  have hquanta : quantaAt (infiniteRank - 1) + quantaAt infiniteRank +
      2 * (2 ^ 970 * Binary64.quantaPerUnit) = 2 * (2 ^ 1024 * Binary64.quantaPerUnit) := by
    decide +kernel
  have hcast := congrArg (Nat.cast : ℕ → ℚ) hquanta
  rw [middle, Nat.sub_add_cancel (by decide)]
  rw [Nat.cast_add, Nat.cast_add, Nat.cast_mul 2, Nat.cast_mul, Nat.cast_mul 2, Nat.cast_mul,
    Nat.cast_pow, Nat.cast_pow, Nat.cast_ofNat] at hcast
  generalize (2 : ℚ) ^ 1024 = limit at hcast ⊢
  generalize (2 : ℚ) ^ 970 = half at hcast ⊢
  linarith

/-! ## Magnitudes in units -/

/-- The exact value; for infinity it is the number that a further exponent would start with. -/
def toRat (m : Magnitude) : ℚ := m.quanta / Binary64.quantaPerUnit

/-- The significand, with the implicit leading bit unless the magnitude is subnormal. -/
def significand (m : Magnitude) : Nat :=
  if m.rank < binadeSize then m.rank else binadeSize + m.rank % binadeSize

theorem quanta_eq_significand (m : Magnitude) :
    m.quanta = m.significand * 2 ^ (m.rank / binadeSize - 1) := by
  unfold quanta quantaAt significand
  split
  · rw [Nat.div_eq_of_lt ‹_›, Nat.zero_sub, Nat.pow_zero, Nat.mul_one]
  · rfl

theorem significand_mod_two (m : Magnitude) : m.significand % 2 = m.rank % 2 := by
  have hbinade : binadeSize = 2 * 2 ^ 51 := by decide
  unfold significand
  split
  · rfl
  · rw [hbinade, Nat.mul_add_mod, Nat.mod_mul_right_mod]

/-- A magnitude is a number rounded to the nearest, ties to the even significand. Small numbers are
rounded to zero, and large ones to infinity. -/
structure Rounds (x : ℚ) (m : Magnitude) : Prop where
  infinite_iff : m.isInfinite = true ↔ 2 ^ 1024 - 2 ^ 970 ≤ x
  zero_iff : m = zero ↔ x ≤ 1 / 2 ^ 1075
  dist_le : m.isInfinite = false → ∀ n : Magnitude, |m.toRat - x| ≤ |n.toRat - x|
  even : m.isInfinite = false → ∀ n : Magnitude, n ≠ m →
    |n.toRat - x| = |m.toRat - x| → m.significand % 2 = 0

theorem dist_units (m : Magnitude) (x : ℚ) :
    |m.toRat - x| =
      |(quantaAt m.rank : ℚ) - x * Binary64.quantaPerUnit| / Binary64.quantaPerUnit := by
  have hunit : (0 : ℚ) < Binary64.quantaPerUnit := Nat.cast_pos.2 Binary64.quantaPerUnit_pos
  rw [toRat, quanta, ← abs_of_pos hunit, ← abs_div, abs_of_pos hunit, sub_div,
    mul_div_cancel_right₀ _ hunit.ne']

theorem toRat_strictMono {m n : Magnitude} (h : m.rank < n.rank) : m.toRat < n.toRat :=
  div_lt_div_of_pos_right (quantaAt_cast_strictMono h)
    (Nat.cast_pos.2 Binary64.quantaPerUnit_pos)

theorem isInfinite_eq_false_iff {m : Magnitude} : m.isInfinite = false ↔ m.rank < infiniteRank := by
  rw [isInfinite, beq_eq_false_iff_ne]
  exact ⟨fun h => Nat.lt_of_le_of_ne m.rank_le h, Nat.ne_of_lt⟩

theorem isInfinite_nearest_iff {num den : Nat} :
    (nearest num den).isInfinite = true ↔ infiniteRank ≤ nearestRank num den := by
  simp [isInfinite, nearest]

theorem nearest_eq_zero_iff {num den : Nat} :
    nearest num den = zero ↔ nearestRank num den = 0 := by
  rw [zero, nearest, mk.injEq, Nat.min_eq_zero_iff]
  exact or_iff_left (by decide)

theorem rank_nearest_of_finite {num den : Nat} (h : (nearest num den).isInfinite = false) :
    (nearest num den).rank = nearestRank num den := by
  rw [← Bool.not_eq_true, isInfinite_nearest_iff] at h
  exact Nat.min_eq_left (Nat.le_of_not_le h)

/-- Rounding a quotient gives a magnitude that it is rounded to. -/
theorem rounds_nearest (num : Nat) {den : Nat} (hden : 0 < den) :
    Rounds (num / den) (nearest (num * Binary64.quantaPerUnit) den) := by
  have hunit : (0 : ℚ) < Binary64.quantaPerUnit := Nat.cast_pos.2 Binary64.quantaPerUnit_pos
  have hnearest : IsNearest (num / den * Binary64.quantaPerUnit)
      (nearestRank (num * Binary64.quantaPerUnit) den) := by
    have h := isNearest_nearestRank (num * Binary64.quantaPerUnit) hden
    rwa [Nat.cast_mul, mul_div_right_comm] at h
  refine ⟨?_, ?_, fun h n => ?_, fun h n hne hdist => ?_⟩
  · have hlast : infiniteRank = infiniteRank - 1 + 1 := by decide
    rw [isInfinite_nearest_iff, hlast, Nat.succ_le_iff, hnearest.lt_iff_of_odd (by decide),
      middle_last, mul_le_mul_iff_left₀ hunit]
  · have hhalf : (2 : ℚ) ^ 1075 = Binary64.quantaPerUnit * 2 := by
      obtain ⟨step, hstep, hquanta⟩ : ∃ step, 1075 = step + 1 ∧ Binary64.quantaPerUnit = 2 ^ step :=
        ⟨1074, rfl, rfl⟩
      rw [hstep, hquanta, pow_succ, Nat.cast_pow, Nat.cast_ofNat]
    rw [nearest_eq_zero_iff, ← Nat.le_zero, hnearest.le_iff_of_even rfl, middle_zero,
      le_div_iff₀ two_pos, le_div_iff₀ (by positivity), hhalf, mul_assoc]
  · rw [dist_units, dist_units, rank_nearest_of_finite h]
    exact div_le_div_of_nonneg_right (hnearest.dist_le n.rank) hunit.le
  · have hrank := rank_nearest_of_finite h
    rw [dist_units, dist_units, hrank, div_left_inj' hunit.ne'] at hdist
    rw [significand_mod_two, hrank]
    exact hnearest.even_of_dist_eq (fun heq => hne (eq_of_rank_eq (heq.trans hrank.symm))) hdist

namespace Rounds

variable {x y : ℚ} {m n : Magnitude}

/-- Rounding keeps the order. If it did not, both numbers would be half way between the magnitudes;
these would have even significands, and another magnitude between them would be nearer. -/
theorem rank_le (hm : m.Rounds x) (hn : n.Rounds y) (h : x ≤ y) : m.rank ≤ n.rank := by
  by_contra hge
  have hlt : n.rank < m.rank := Nat.lt_of_not_le hge
  have hnfinite : n.isInfinite = false :=
    isInfinite_eq_false_iff.2 (Nat.lt_of_lt_of_le hlt m.rank_le)
  have hmfinite : m.isInfinite = false := by
    rw [← Bool.not_eq_true, hm.infinite_iff]
    rw [← Bool.not_eq_true, hn.infinite_iff] at hnfinite
    exact fun hle => hnfinite (hle.trans h)
  have hless := toRat_strictMono hlt
  have hx := (nearer_upper_iff hless).1 (hm.dist_le hmfinite n)
  have hy := (nearer_lower_iff hless).1 (hn.dist_le hnfinite m)
  have hmeven : m.significand % 2 = 0 := by
    refine hm.even hmfinite n (fun heq => hlt.ne (heq ▸ rfl)) ?_
    exact ((nearer_lower_iff hless).2 (h.trans hy)).antisymm ((nearer_upper_iff hless).2 hx)
  have hneven : n.significand % 2 = 0 := by
    refine hn.even hnfinite m (fun heq => hlt.ne' (heq ▸ rfl)) ?_
    exact ((nearer_upper_iff hless).2 (hx.trans h)).antisymm ((nearer_lower_iff hless).2 hy)
  rw [significand_mod_two] at hmeven hneven
  have hbetween : n.rank + 1 < m.rank := by omega
  let next : Magnitude := ⟨n.rank + 1, hbetween.le.trans m.rank_le⟩
  have hnext : n.toRat < next.toRat := toRat_strictMono (Nat.lt_succ_self n.rank)
  have hnearer := (nearer_upper_iff (toRat_strictMono hbetween)).1 (hm.dist_le hmfinite next)
  linarith

/-- A number is rounded to one magnitude. -/
theorem unique (hm : m.Rounds x) (hn : n.Rounds x) : m = n :=
  eq_of_rank_eq (Nat.le_antisymm (hm.rank_le hn le_rfl) (hn.rank_le hm le_rfl))

end Rounds

end Magnitude

end Calculator
