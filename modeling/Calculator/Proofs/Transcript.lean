import Mathlib
import Calculator.Proofs.Reading

/-!
# What a session writes

`Writes m result out`: into a sink without a limit `m` writes `out` and ends with `result`; into a
sink with room for fewer bytes it writes the first ones only and breaks off. A session is such a
computation whatever its source is (`rounds_writes`), because one round before such rounds is one too
(`writes_round`): what it writes is the prompts and the replies to the lines of the source in order
up to a quit line (`transcript`), and it ends with the counts of its replies (`tally`) unless reading
breaks off before a quit line (`ending`).
-/

namespace Calculator.Session

/-- The prompts and the replies to the lines, up to a line that ends the session. -/
def transcript (config : Config) : List (List UInt8) → String
  | [] => config.prompt
  | line :: rest =>
    config.prompt ++
      match reply config line with
      | .blank => transcript config rest
      | .quit => ""
      | .value shown | .failure shown => shown ++ transcript config rest

/-- How many replies before a line that ends the session are values, and how many are failures. -/
def tally (config : Config) : List (List UInt8) → Summary
  | [] => {}
  | line :: rest =>
    let later := tally config rest
    match reply config line with
    | .blank => later
    | .quit => {}
    | .value _ => { later with evaluated := later.evaluated + 1 }
    | .failure _ => { later with failed := later.failed + 1 }

instance : Add Summary := ⟨fun s t => ⟨s.evaluated + t.evaluated, s.failed + t.failed⟩⟩

theorem Summary.zero_add (s : Summary) : {} + s = s := by
  show Summary.mk (0 + s.evaluated) (0 + s.failed) = s
  rw [Nat.zero_add, Nat.zero_add]

/-- A value among the later replies may be counted with the earlier ones. -/
theorem Summary.add_value (s t : Summary) :
    s + { t with evaluated := t.evaluated + 1 } = { s with evaluated := s.evaluated + 1 } + t :=
  congrArg (Summary.mk · _) (Nat.add_right_comm _ _ 1)

theorem Summary.add_failure (s t : Summary) :
    s + { t with failed := t.failed + 1 } = { s with failed := s.failed + 1 } + t :=
  congrArg (Summary.mk _) (Nat.add_right_comm _ _ 1)

/-- Whether a line of input ends the session. -/
def quits (line : List UInt8) : Bool := isQuit (expressionOn line)

/-- How the rounds over the lines end when the replies before them count up to `summary`. -/
def ending (config : Config) (breaks : Bool) (summary : Summary) (lines : List (List UInt8)) :
    Except Fault Summary :=
  if breaks && !lines.any quits then .error .read else .ok (summary + tally config lines)

variable {config : Config}

/-- Whether a line ends the session does not depend on what the session shows. -/
theorem reply_eq_quit_iff {line : List UInt8} : reply config line = .quit ↔ quits line = true := by
  unfold reply quits replyTo
  by_cases hblank : (expressionOn line).isEmpty = true
  · have hempty : expressionOn line = "" := by simpa using hblank
    simp [hempty, isQuit, quitCommands]
  · rw [if_neg hblank]
    by_cases hquit : isQuit (expressionOn line) = true
    · simp [hquit]
    · cases Evaluation.ofText (expressionOn line) <;> simp [hquit]

theorem reply_ne_quit_iff {line : List UInt8} : reply config line ≠ .quit ↔ quits line = false := by
  rw [ne_eq, reply_eq_quit_iff, Bool.not_eq_true]

/-! ## Writing -/

theorem toUTF8_append (s t : String) : (s ++ t).toUTF8 = s.toUTF8 ++ t.toUTF8 :=
  String.toByteArray_append

theorem Sink.write_of_le {written bytes : ByteArray} {room : Nat} (h : bytes.size ≤ room) :
    Sink.write ⟨written, some room⟩ bytes =
      (true, ⟨written ++ bytes, some (room - bytes.size)⟩) := by
  simp only [Sink.write, h, if_true]

theorem Sink.write_of_lt {written bytes : ByteArray} {room : Nat} (h : room < bytes.size) :
    Sink.write ⟨written, some room⟩ bytes =
      (false, ⟨written ++ bytes.extract 0 room, some 0⟩) := by
  simp only [Sink.write, Nat.not_le.2 h, if_false]

theorem say_run (text : String) (sink : Sink) :
    (say text).run.run sink =
      (if (sink.write text.toUTF8).1 then .ok () else .error .write,
        (sink.write text.toUTF8).2) := by
  show ((if (sink.write text.toUTF8).1 then pure () else throw .write : Shell Unit).run.run
    (sink.write text.toUTF8).2) = _
  cases (sink.write text.toUTF8).1 <;> rfl

/-- What a computation writes, how it ends if there is room for that, and that it stops at the first
byte without room otherwise. -/
structure Writes {α : Type} (m : Shell α) (result : Except Fault α) (out : ByteArray) : Prop where
  unlimited : ∀ written, m.run.run ⟨written, none⟩ = (result, ⟨written ++ out, none⟩)
  limited : ∀ written room, m.run.run ⟨written, some room⟩ =
    if out.size ≤ room then (result, ⟨written ++ out, some (room - out.size)⟩)
    else (.error .write, ⟨written ++ out.extract 0 room, some 0⟩)

namespace Writes

variable {α : Type}

theorem pure (a : α) : Writes (Pure.pure a) (.ok a) .empty := by
  refine ⟨fun written => ?_, fun written room => ?_⟩
  · rw [ByteArray.append_empty]
    rfl
  · rw [ByteArray.size_empty, if_pos (Nat.zero_le room), ByteArray.append_empty]
    rfl

theorem throw (fault : Fault) :
    Writes (MonadExcept.throw fault : Shell α) (.error fault) .empty := by
  refine ⟨fun written => ?_, fun written room => ?_⟩
  · rw [ByteArray.append_empty]
    rfl
  · rw [ByteArray.size_empty, if_pos (Nat.zero_le room), ByteArray.append_empty]
    rfl

/-- A text is written before all that follows. -/
theorem say_bind (text : String) {next : Unit → Shell α} {result : Except Fault α}
    {out : ByteArray} (h : Writes (next ()) result out) :
    Writes (say text >>= next) result (text.toUTF8 ++ out) := by
  have hrun : ∀ sink, (say text >>= next).run.run sink =
      if (sink.write text.toUTF8).1 then (next ()).run.run (sink.write text.toUTF8).2
      else (.error .write, (sink.write text.toUTF8).2) := by
    intro sink
    rw [ExceptT.run_bind, StateT.run_bind, say_run]
    cases (sink.write text.toUTF8).1 <;> rfl
  refine ⟨fun written => ?_, fun written room => ?_⟩
  · rw [hrun, Sink.write, if_pos rfl, h.unlimited, ByteArray.append_assoc]
  · rw [hrun, ByteArray.size_append, ByteArray.extract_append, Nat.zero_sub]
    by_cases hfits : text.toUTF8.size ≤ room
    · -- The text fits; the room that it leaves decides about what follows.
      have hfollow : text.toUTF8.size + out.size ≤ room ↔ out.size ≤ room - text.toUTF8.size := by
        omega
      have hwhole : text.toUTF8.extract 0 room = text.toUTF8 := by
        have hmax := ByteArray.extract_zero_max_size (a := text.toUTF8) (i := room)
        rwa [Nat.max_eq_left hfits] at hmax
      rw [Sink.write_of_le hfits, if_pos rfl, h.limited, if_congr hfollow rfl rfl, hwhole,
        ByteArray.append_assoc, ByteArray.append_assoc, Nat.sub_sub]
    · have hshort : room < text.toUTF8.size := Nat.lt_of_not_le hfits
      have hall : ¬ text.toUTF8.size + out.size ≤ room := by omega
      have hnone : out.extract 0 (room - text.toUTF8.size) = .empty := by
        rw [Nat.sub_eq_zero_of_le hshort.le, ByteArray.extract_same]
      rw [Sink.write_of_lt hshort, if_neg Bool.false_ne_true, if_neg hall, hnone,
        ByteArray.append_empty]

/-- Nothing is written after a text. -/
theorem say_last (text : String) {next : Unit → Shell α} {result : Except Fault α}
    (h : Writes (next ()) result .empty) : Writes (say text >>= next) result text.toUTF8 := by
  have hwrites := say_bind text h
  rwa [ByteArray.append_empty] at hwrites

end Writes

/-! ## The rounds -/

section Rounds

variable {breaks : Bool} {bytes after line : List UInt8} {rest : List (List UInt8)}

theorem writes_end (hread : (Dialogue.console breaks).readLine.run bytes = return ([], after))
    (summary : Summary) :
    Writes (roundsOver config breaks summary bytes) (.ok summary) config.prompt.toUTF8 := by
  rw [roundsOver_eq, hread, pure_bind]
  exact Writes.say_last _ (Writes.pure summary)

theorem writes_break (hread : (Dialogue.console breaks).readLine.run bytes = throw .read)
    (summary : Summary) :
    Writes (roundsOver config breaks summary bytes) (.error .read) config.prompt.toUTF8 := by
  rw [roundsOver_eq, hread]
  exact Writes.say_last _ (Writes.throw .read)

/-- A round over a line, before the rounds over the other lines. -/
theorem writes_round (hread : (Dialogue.console breaks).readLine.run bytes = return (line, after))
    (hne : line ≠ [])
    (hafter : ∀ summary, Writes (roundsOver config breaks summary after)
      (ending config breaks summary rest) (transcript config rest).toUTF8)
    (summary : Summary) :
    Writes (roundsOver config breaks summary bytes) (ending config breaks summary (line :: rest))
      (transcript config (line :: rest)).toUTF8 := by
  have hgoes := (@reply_ne_quit_iff config line).1
  rw [roundsOver_eq, hread, pure_bind, transcript, toUTF8_append]
  refine Writes.say_bind _ ?_
  simp only [List.isEmpty_eq_false_iff.2 hne, Bool.false_eq_true, if_false]
  unfold ending at *
  rw [List.any_cons, tally]
  cases hreply : reply config line with
  | blank =>
    rw [hgoes (by simp [hreply]), Bool.false_or]
    exact hafter summary
  | quit =>
    rw [reply_eq_quit_iff.1 hreply, Bool.true_or, Bool.not_true, Bool.and_false]
    exact Writes.pure summary
  | value shown =>
    rw [hgoes (by simp [hreply]), Bool.false_or, toUTF8_append, Summary.add_value]
    exact Writes.say_bind _ (hafter _)
  | failure shown =>
    rw [hgoes (by simp [hreply]), Bool.false_or, toUTF8_append, Summary.add_failure]
    exact Writes.say_bind _ (hafter _)

/-- The rounds write the transcript of the lines of the source, and their ending adds its counts to
those before. -/
theorem rounds_writes (breaks : Bool) (summary : Summary) (bytes : List UInt8) :
    Writes (roundsOver config breaks summary bytes)
      (ending config breaks summary (Source.lines ⟨bytes, breaks⟩))
      (transcript config (Source.lines ⟨bytes, breaks⟩)).toUTF8 := by
  induction bytes using Text.cut_induction (· == lineFeed) generalizing summary with
  | last bytes hnone =>
    have hread := @Console.readLine_rest breaks bytes hnone
    rw [lines_rest hnone]
    cases breaks with
    | true => exact writes_break hread summary
    | false =>
      by_cases hempty : bytes = []
      · subst hempty
        exact writes_end hread summary
      · rw [Bool.false_or, List.isEmpty_eq_false_iff.2 hempty, if_neg Bool.false_ne_true]
        -- The last line; after it a round finds the end of the input.
        exact writes_round hread hempty
          (writes_end (Console.readLine_rest (List.forall_mem_nil _))) summary
  | cut piece byte after hpiece hbyte ih =>
    obtain rfl : byte = lineFeed := beq_iff_eq.1 hbyte
    rw [lines_line hpiece]
    exact writes_round (Console.readLine_line hpiece after) (by simp) ih summary

end Rounds

/-! ## Sessions -/

theorem run_unlimited (config : Config) (source : Source) :
    run config source {} =
      (ending config source.breaks {} source.lines,
        { written := (transcript config source.lines).toUTF8 }) := by
  have hrun := (@rounds_writes config source.breaks {} source.bytes).unlimited .empty
  rw [ByteArray.empty_append] at hrun
  exact hrun

theorem run_eq (config : Config) (input : List UInt8) :
    run config { bytes := input } {} =
      (.ok (tally config (Source.lines { bytes := input })),
        { written := (transcript config (Source.lines { bytes := input })).toUTF8 }) := by
  rw [run_unlimited, ending, Bool.false_and, if_neg Bool.false_ne_true, Summary.zero_add]

theorem run_limited (config : Config) (source : Source) (room : Nat) :
    run config source { room := some room } =
      if room < (run config source {}).2.written.size then
        (.error .write,
          { written := (run config source {}).2.written.extract 0 room, room := some 0 })
      else
        ((run config source {}).1,
          { written := (run config source {}).2.written,
            room := some (room - (run config source {}).2.written.size) }) := by
  have hrun := (@rounds_writes config source.breaks {} source.bytes).limited .empty room
  rw [ByteArray.empty_append, ByteArray.empty_append] at hrun
  simp only [run_unlimited, ← Nat.not_le, ite_not]
  exact hrun

end Calculator.Session
