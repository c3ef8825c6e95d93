import Mathlib
import Calculator.Proofs.Cutting
import Calculator.Session

/-!
# What a session reads

The lines of a source are its bytes up to a line feed each and the bytes after the last one
(`lines_line`, `lines_rest`), and this is what the loop that reads a line byte by byte gives one
after the other (`readLine_line`, `readLine_rest`). The rounds over a source are one round and then
the rounds over what that one has not read (`roundsOver_eq`).
-/

namespace Calculator.Session

variable {breaks : Bool} {bytes piece : List UInt8}

/-! ## The lines of a source -/

theorem lines_line (h : ∀ byte ∈ piece, (byte == lineFeed) = false) (after : List UInt8) :
    Source.lines ⟨piece ++ lineFeed :: after, breaks⟩ =
      (piece ++ [lineFeed]) :: Source.lines ⟨after, breaks⟩ := by
  unfold Source.lines
  rw [Text.cutAfter_stop h (beq_self_eq_true lineFeed)]
  cases breaks with
  | true => exact List.filter_cons_of_pos (by simp)
  | false => rfl

/-- A last line without a line feed is lost if reading on after it fails. -/
theorem lines_rest (h : ∀ byte ∈ bytes, (byte == lineFeed) = false) :
    Source.lines ⟨bytes, breaks⟩ = if breaks || bytes.isEmpty then [] else [bytes] := by
  unfold Source.lines
  cases bytes with
  | nil => cases breaks <;> rfl
  | cons byte rest =>
    have hnot : lineFeed ∉ byte :: rest := fun hmem => by simpa using h lineFeed hmem
    rw [Text.cutAfter_last h (List.cons_ne_nil _ _)]
    cases breaks with
    | true => exact List.filter_cons_of_neg (by simpa using hnot)
    | false => rfl

/-! ## Loops over a source -/

/-- A loop is its body, and then the loop again if the body says so. -/
theorem run_repeatM {α β : Type} [Nonempty β] (body : α → Dialogue (α ⊕ β)) (a : α) :
    (repeatM body a).run bytes = do
      match ← (body a).run bytes with
      | (.inl a, after) => (repeatM body a).run after
      | (.inr b, after) => return (b, after) := by
  rw [repeatM_eq_of_monadTail, StateT.run_bind]
  refine bind_congr fun result => ?_
  rcases result with ⟨_ | _, _⟩ <;> rfl

namespace Console

theorem repeatM_readOn_nil (line : Array UInt8) :
    (repeatM (Dialogue.console breaks).readOn line).run [] =
      if breaks then throw .read else return (line, []) := by
  rw [run_repeatM]
  cases breaks <;> rfl

theorem repeatM_readOn_cons (line : Array UInt8) (byte : UInt8) (rest : List UInt8) :
    (repeatM (Dialogue.console breaks).readOn line).run (byte :: rest) =
      if byte == lineFeed then return (line.push byte, rest)
      else (repeatM (Dialogue.console breaks).readOn (line.push byte)).run rest := by
  have hstep : ((Dialogue.console breaks).readOn line).run (byte :: rest) =
      return (if byte == lineFeed then .inr (line.push byte) else .inl (line.push byte), rest) := rfl
  rw [run_repeatM, hstep, pure_bind]
  cases byte == lineFeed <;> rfl

/-- The bytes of a line are read on to those before them. -/
theorem repeatM_readOn_append (h : ∀ byte ∈ piece, (byte == lineFeed) = false) (line : Array UInt8)
    (after : List UInt8) :
    (repeatM (Dialogue.console breaks).readOn line).run (piece ++ after) =
      (repeatM (Dialogue.console breaks).readOn (line ++ piece)).run after := by
  induction piece generalizing line with
  | nil => rw [List.nil_append, Array.appendList_nil]
  | cons byte piece ih =>
    rw [List.cons_append, repeatM_readOn_cons, h byte (.head _), if_neg Bool.false_ne_true,
      ih fun other hother => h other (.tail _ hother), Array.appendList_cons]

theorem readLine_run : (Dialogue.console breaks).readLine.run bytes = do
    let (line, after) ← (repeatM (Dialogue.console breaks).readOn #[]).run bytes
    return (line.toList, after) := rfl

theorem readLine_line (h : ∀ byte ∈ piece, (byte == lineFeed) = false) (after : List UInt8) :
    (Dialogue.console breaks).readLine.run (piece ++ lineFeed :: after) =
      return (piece ++ [lineFeed], after) := by
  rw [readLine_run, repeatM_readOn_append h, repeatM_readOn_cons, beq_self_eq_true, if_pos rfl,
    pure_bind]
  simp

theorem readLine_rest (h : ∀ byte ∈ bytes, (byte == lineFeed) = false) :
    (Dialogue.console breaks).readLine.run bytes =
      if breaks then throw .read else return (bytes, []) := by
  have happend := @repeatM_readOn_append breaks bytes h #[] []
  rw [List.append_nil] at happend
  rw [readLine_run, happend, repeatM_readOn_nil]
  cases breaks with
  | true => rfl
  | false =>
    rw [if_neg Bool.false_ne_true, if_neg Bool.false_ne_true, pure_bind]
    simp

end Console

/-! ## The rounds over a source -/

/-- The rounds over the bytes of a source from these counts on; `breaks` says whether reading on
after the bytes fails. -/
abbrev roundsOver (config : Config) (breaks : Bool) (summary : Summary) (bytes : List UInt8) :
    Shell Summary :=
  ((Dialogue.console breaks).rounds config summary).run' bytes

/-- The rounds are one round, and then the rounds over what that one has not read. -/
theorem roundsOver_eq (config : Config) (summary : Summary) :
    roundsOver config breaks summary bytes = (do
      say config.prompt
      let (line, after) ← (Dialogue.console breaks).readLine.run bytes
      if line.isEmpty then return summary
      match reply config line with
      | .blank => roundsOver config breaks summary after
      | .quit => return summary
      | .value shown =>
        say shown
        roundsOver config breaks { summary with evaluated := summary.evaluated + 1 } after
      | .failure shown =>
        say shown
        roundsOver config breaks { summary with failed := summary.failed + 1 } after) := by
  have hsay (text : String) (bytes : List UInt8) :
      ((Dialogue.console breaks).say text).run bytes =
        say text >>= fun _ => return ((), bytes) := rfl
  rw [roundsOver, Console.rounds, StateT.run'_eq, run_repeatM, Console.round]
  simp only [StateT.run_bind, map_bind, bind_assoc, hsay, pure_bind]
  refine bind_congr fun _ => bind_congr fun read => ?_
  obtain ⟨line, after⟩ := read
  cases line.isEmpty with
  | true => rfl
  | false =>
    cases reply config line with
    | blank | quit => rfl
    | value shown | failure shown =>
      simp only [Bool.false_eq_true, if_false, StateT.run_bind, hsay, bind_assoc, pure_bind]
      rfl

end Calculator.Session
