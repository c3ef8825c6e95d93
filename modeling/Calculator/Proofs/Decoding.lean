import Mathlib
import Calculator.Proofs.Cutting
import Calculator.Session

/-!
# Decoding line by line

No byte of a longer sequence is a line feed, and no character of more than one byte is one. A line
feed therefore ends whatever sequence is open before it, and reading starts afresh after it
(`decodeFrom_lineFeed`): the lines of the text are the lines of the bytes, each decoded on its own
(`cutAfter_decodeFrom`).
-/

namespace Calculator.Text.Utf8

open Session (lineFeed)

/-! ## The sequences that come up -/

/-- What is known of a sequence that is open: a line feed does not go on with it, and it has too
many bits for a character of one byte, or will have them with the next byte. -/
structure Partial.Open (start : Partial) : Prop where
  low : 0x80 ≤ start.low
  bits : 2 ≤ start.bits ∨ 2 ≤ start.owed ∧ 0x82 ≤ start.bits * 64 + start.low

theorem eq_of_char_eq_lineFeed {n : Nat} (h : Char.ofNat n = '\n') : n = 10 := by
  unfold Char.ofNat at h
  split at h
  · exact congrArg Char.toNat h
  · exact absurd h (by decide)

/-- Only the line feed is read as one, and a sequence that starts is open. -/
def Lead.Fits (byte : Nat) : Lead → Prop
  | .char c => c = '\n' → byte = 10
  | .sequence start => start.Open
  | .invalid => True

theorem lead_fits (byte : Nat) : (lead byte).Fits byte := by
  unfold lead
  split
  · exact eq_of_char_eq_lineFeed
  -- The bits of a first byte are what it exceeds the least one of its length by; those that could
  -- be too few have a second byte that is limited from below.
  · repeat' split
    all_goals first
      | trivial
      | exact ⟨by simp only; omega, by simp only; omega⟩

theorem stepStart_open {byte : Nat} {start : Partial} (h : start ∈ (stepStart byte).2) :
    start.Open := by
  have hfits := lead_fits byte
  unfold stepStart at h
  cases hlead : lead byte with
  | char c => simp [hlead] at h
  | sequence s =>
    rw [hlead] at h hfits
    exact Option.some.inj h ▸ hfits
  | invalid => simp [hlead] at h

theorem lineFeed_not_mem_stepStart {byte : Nat} (h : byte ≠ 10) : '\n' ∉ (stepStart byte).1 := by
  have hfits := lead_fits byte
  unfold stepStart
  cases hlead : lead byte with
  | char c =>
    rw [hlead] at hfits
    exact fun hmem => h (hfits (List.mem_singleton.1 hmem).symm)
  | sequence s => exact List.not_mem_nil
  | invalid => decide

/-- A byte that completes nothing starts a sequence. -/
theorem stepStart_progress (byte : Nat) :
    (stepStart byte).1 ≠ [] ∨ (stepStart byte).2.isSome = true := by
  unfold stepStart
  cases lead byte <;> simp

/-! ## One byte -/

variable {state : Option Partial}

theorem step_open (h : ∀ start ∈ state, start.Open) (byte : Nat) :
    ∀ start ∈ (step state byte).2, start.Open := by
  intro next hnext
  cases state with
  | none => exact stepStart_open hnext
  | some start =>
    obtain ⟨hlow, hbits⟩ := h start rfl
    rw [step] at hnext
    split at hnext
    · rename_i hrange
      simp only [Bool.and_eq_true, decide_eq_true_eq] at hrange
      simp only at hnext
      split at hnext
      · cases hnext
      · obtain rfl := Option.some.inj hnext
        exact ⟨Nat.le_refl _, .inl (by simp only; omega)⟩
    · exact stepStart_open hnext

theorem lineFeed_not_mem_step (h : ∀ start ∈ state, start.Open) {byte : Nat} (hbyte : byte ≠ 10) :
    '\n' ∉ (step state byte).1 := by
  cases state with
  | none => exact lineFeed_not_mem_stepStart hbyte
  | some start =>
    obtain ⟨hlow, hbits⟩ := h start rfl
    rw [step]
    split
    · rename_i hrange
      simp only [Bool.and_eq_true, decide_eq_true_eq] at hrange
      simp only
      split
      · intro hmem
        have := eq_of_char_eq_lineFeed (List.mem_singleton.1 hmem).symm
        omega
      · exact List.not_mem_nil
    · intro hmem
      rcases List.mem_cons.1 hmem with heq | hmem
      · exact absurd heq (by decide)
      · exact lineFeed_not_mem_stepStart hbyte hmem

/-- A line feed ends the sequence that is open and is read as itself. -/
theorem step_lineFeed (h : ∀ start ∈ state, start.Open) :
    step state 10 = (decodeFrom state [] ++ ['\n'], none) := by
  cases state with
  | none => rfl
  | some start =>
    have hlow := (h start rfl).low
    have hout : (start.low ≤ 10 && 10 ≤ start.high : Bool) = false := by
      rw [decide_eq_false (by omega), Bool.false_and]
    rw [step, hout]
    rfl

theorem step_progress (state : Option Partial) (byte : Nat) :
    (step state byte).1 ≠ [] ∨ (step state byte).2.isSome = true := by
  cases state with
  | none => exact stepStart_progress byte
  | some start =>
    rw [step]
    split
    · simp only
      split <;> simp
    · exact .inl (List.cons_ne_nil _ _)

/-! ## Lists of bytes -/

theorem decodeFrom_cons (byte : UInt8) (bytes : List UInt8) :
    decodeFrom state (byte :: bytes) =
      (step state byte.toNat).1 ++ decodeFrom (step state byte.toNat).2 bytes := rfl

theorem decodeFrom_lineFeed (h : ∀ start ∈ state, start.Open) (bytes rest : List UInt8) :
    decodeFrom state (bytes ++ lineFeed :: rest) =
      decodeFrom state bytes ++ '\n' :: decodeFrom none rest := by
  induction bytes generalizing state with
  | nil =>
    rw [List.nil_append, decodeFrom_cons, show lineFeed.toNat = 10 from rfl, step_lineFeed h]
    exact List.append_assoc ..
  | cons byte bytes ih =>
    rw [List.cons_append, decodeFrom_cons, decodeFrom_cons, ih (step_open h byte.toNat)]
    exact (List.append_assoc ..).symm

theorem lineFeed_not_mem_decodeFrom (h : ∀ start ∈ state, start.Open) {bytes : List UInt8}
    (hbytes : lineFeed ∉ bytes) : '\n' ∉ decodeFrom state bytes := by
  induction bytes generalizing state with
  | nil =>
    rw [decodeFrom]
    split <;> decide
  | cons byte bytes ih =>
    rw [List.mem_cons, not_or] at hbytes
    have hbyte : byte.toNat ≠ 10 := fun heq => hbytes.1 (UInt8.toNat_inj.1 heq).symm
    rw [decodeFrom_cons, List.mem_append, not_or]
    exact ⟨lineFeed_not_mem_step h hbyte, ih (step_open h byte.toNat) hbytes.2⟩

theorem decodeFrom_ne_nil {bytes : List UInt8} (h : state.isSome = true ∨ bytes ≠ []) :
    decodeFrom state bytes ≠ [] := by
  induction bytes generalizing state with
  | nil =>
    have hsome := h.resolve_right fun hne => hne rfl
    rw [decodeFrom, if_pos hsome]
    exact List.cons_ne_nil _ _
  | cons byte bytes ih =>
    rw [decodeFrom_cons]
    rcases step_progress state byte.toNat with hchars | hopen
    · exact List.append_ne_nil_of_left_ne_nil hchars _
    · exact List.append_ne_nil_of_right_ne_nil _ (ih (.inl hopen))

/-- The lines of the text are those of the bytes, each decoded on its own. -/
theorem cutAfter_decodeFrom (bytes : List UInt8) :
    cutAfter isLineFeed (decodeFrom none bytes) =
      (cutAfter (· == lineFeed) bytes).map (decodeFrom none) := by
  have hnone : ∀ start ∈ (none : Option Partial), start.Open := fun _ h => nomatch h
  have hchars {bytes : List UInt8} (h : ∀ byte ∈ bytes, (byte == lineFeed) = false) :
      ∀ c ∈ decodeFrom none bytes, isLineFeed c = false := by
    intro c hc
    have hbytes : lineFeed ∉ bytes := fun hmem => absurd (h _ hmem) (by decide)
    have hlf := lineFeed_not_mem_decodeFrom hnone hbytes
    exact beq_eq_false_iff_ne.2 fun heq => hlf (heq ▸ hc)
  induction bytes using cut_induction (· == lineFeed) with
  | last bytes h =>
    by_cases hne : bytes = []
    · rw [hne]
      rfl
    · rw [cutAfter_last h hne, cutAfter_last (hchars h) (decodeFrom_ne_nil (.inr hne))]
      rfl
  | cut piece byte after h hbyte ih =>
    obtain rfl : byte = lineFeed := by simpa using hbyte
    have hpiece := decodeFrom_lineFeed hnone piece []
    rw [cutAfter_stop h hbyte, decodeFrom_lineFeed hnone, cutAfter_stop (hchars h) rfl, ih,
      List.map_cons, hpiece]
    rfl

end Calculator.Text.Utf8
