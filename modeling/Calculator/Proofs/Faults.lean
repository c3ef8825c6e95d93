import Mathlib
import Calculator.Proofs.Continuation

/-!
# Sessions that break off

Reading that breaks off leaves the lines that are complete by then (`lines_of_breaks`), and a sink
without room leaves the first bytes of what would be written (`Writes.limited`). So a fault does
no more than cut a session short (`run_truncated`): nothing is written that would not be written
without it, and no part of a line is answered.
-/

namespace Calculator.Session

variable {config : Config}

/-! ## Complete lines -/

/-- The bytes up to the last line feed. -/
def completeLines (bytes : List UInt8) : List UInt8 :=
  (bytes.reverse.dropWhile (· != lineFeed)).reverse

theorem completeLines_append (bytes : List UInt8) :
    ∃ rest, bytes = completeLines bytes ++ rest ∧ lineFeed ∉ rest := by
  refine ⟨(bytes.reverse.takeWhile (· != lineFeed)).reverse, ?_, ?_⟩
  · rw [completeLines, ← List.reverse_append, List.takeWhile_append_dropWhile, List.reverse_reverse]
  · intro hmem
    rw [List.mem_reverse] at hmem
    have hne := List.all_eq_true.1 List.all_takeWhile lineFeed hmem
    simp at hne

theorem endsLine_completeLines (bytes : List UInt8) : EndsLine (completeLines bytes) := by
  have hstop := List.head?_dropWhile_not (· != lineFeed) bytes.reverse
  unfold EndsLine completeLines
  rw [List.getLast?_reverse, List.reverse_eq_nil_iff]
  cases hd : bytes.reverse.dropWhile (· != lineFeed) with
  | nil => exact .inl rfl
  | cons byte rest =>
    rw [hd] at hstop
    simp only [List.head?_cons, bne_eq_false_iff_eq] at hstop
    exact .inr (by simp [hstop])

theorem completeLines_none {bytes : List UInt8} (h : ∀ byte ∈ bytes, (byte == lineFeed) = false) :
    completeLines bytes = [] := by
  rw [completeLines, List.reverse_eq_nil_iff, List.dropWhile_eq_nil_iff]
  intro byte hbyte
  rw [bne, h byte (List.mem_reverse.1 hbyte)]
  rfl

theorem completeLines_cons (piece after : List UInt8) :
    completeLines (piece ++ lineFeed :: after) = piece ++ lineFeed :: completeLines after := by
  unfold completeLines
  rw [List.reverse_append, List.reverse_cons, List.append_assoc, List.dropWhile_append]
  split
  · rename_i hnone
    rw [List.isEmpty_iff.1 hnone]
    simp
  · simp

/-- A source that breaks off delivers the complete lines. -/
theorem lines_of_breaks (bytes : List UInt8) :
    Source.lines ⟨bytes, true⟩ = Source.lines { bytes := completeLines bytes } := by
  induction bytes using Text.cut_induction (· == lineFeed) with
  | last bytes hnone =>
    rw [completeLines_none hnone, lines_rest hnone]
    rfl
  | cut piece byte after hpiece hbyte ih =>
    obtain rfl : byte = lineFeed := beq_iff_eq.1 hbyte
    rw [completeLines_cons, lines_line hpiece, lines_line hpiece, ih]

/-! ## Faults -/

/-- A reader that fails after `n` bytes leaves a session as it is that one of the complete lines
until then ends; any other breaks off with what a session over these lines writes. A writer that
fails after `room` bytes leaves a session as it is that writes no more; any other breaks off with
the first `room` bytes of what it writes. -/
theorem run_truncated (config : Config) (input : List UInt8) :
    (∀ n ≤ input.length,
      ((∃ line ∈ Source.lines { bytes := completeLines (input.take n) }, quits line = true) →
        run config (.limited input (some n)) {} = run config { bytes := input } {}) ∧
      ((∀ line ∈ Source.lines { bytes := completeLines (input.take n) }, quits line = false) →
        run config (.limited input (some n)) {} =
          (.error .read, (run config { bytes := completeLines (input.take n) } {}).2))) ∧
    ∀ limit room,
      let complete := run config (.limited input limit) {}
      run config (.limited input limit) { room := some room } =
        if room < complete.2.written.size then
          (.error .write, { written := complete.2.written.extract 0 room, room := some 0 })
        else
          (complete.1,
            { written := complete.2.written, room := some (room - complete.2.written.size) }) := by
  refine ⟨fun n hn => ?_, fun limit room => run_limited config _ room⟩
  obtain ⟨part, hpart, -⟩ := completeLines_append (input.take n)
  have hinput : input = completeLines (input.take n) ++ (part ++ input.drop n) := by
    rw [← List.append_assoc, ← hpart, List.take_append_drop]
  rw [show Source.limited input (some n) = ⟨input.take n, true⟩ from if_pos hn, run_unlimited,
    lines_of_breaks]
  refine ⟨fun hquit => ?_, fun hgoes => ?_⟩
  · have hany : (Source.lines { bytes := completeLines (input.take n) }).any quits = true :=
      List.any_eq_true.2 hquit
    have hlines := lines_append (endsLine_completeLines (input.take n)) (part ++ input.drop n)
    rw [← hinput] at hlines
    rw [run_eq, hlines, transcript_append_of_quits hquit, tally_append_of_quits hquit, ending, hany,
      Bool.not_true, Bool.and_false, if_neg Bool.false_ne_true, Summary.zero_add]
  · have hany : (Source.lines { bytes := completeLines (input.take n) }).any quits = false := by
      simpa using hgoes
    rw [run_eq, ending, hany]
    rfl

/-- Reading that breaks off in the middle of a second line, `23`, and reading that does so after a
line that ends the session. -/
theorem run_truncated_each :
    let config : Config := { drawing := true }
    let input : List UInt8 := [49, 10, 50, 51]
    let ended : List UInt8 := [58, 113, 10, 50, 51]
    (3 ≤ input.length ∧
      (∀ line ∈ Source.lines { bytes := completeLines (input.take 3) }, quits line = false) ∧
      run config (.limited input (some 3)) {} =
        (.error .read, (run config { bytes := completeLines (input.take 3) } {}).2)) ∧
    4 ≤ ended.length ∧
      (∃ line ∈ Source.lines { bytes := completeLines (ended.take 4) }, quits line = true) ∧
      run config (.limited ended (some 4)) {} = run config { bytes := ended } {} := by
  intro config input ended
  have hinput : 3 ≤ input.length := by decide
  have hended : 4 ≤ ended.length := by decide
  have hgoes : ∀ line ∈ Source.lines { bytes := completeLines (input.take 3) },
      quits line = false := by decide +kernel
  have hquit : ∃ line ∈ Source.lines { bytes := completeLines (ended.take 4) },
      quits line = true := by decide +kernel
  exact ⟨⟨hinput, hgoes, ((run_truncated config input).1 3 hinput).2 hgoes⟩, hended, hquit,
    ((run_truncated config ended).1 4 hended).1 hquit⟩

end Calculator.Session
