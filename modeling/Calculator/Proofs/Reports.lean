import Mathlib
import Calculator.Command
import Calculator.Proofs.Answers
import Calculator.Proofs.NumberedLines

/-!
# Reports of a batch

A batch prints a line for each line of the file that is not blank: the number, the expression and what
the program answers to the expression alone (`Response.Continues`). Whatever the bytes of the file are,
none of these lines has a line feed in it, so that the output is read as exactly these lines, and the
exit status and the error output say how many of the answers are failures
(`Command.batch_collects`).
-/

namespace Calculator

open Text (IsLine OneLine oneLine_append)
open Text.Utf8 (decode)

namespace Batch

/-! ## One report -/

/-- What a report says after the expression. -/
def outcome (result : Except ExpressionError Binary64) : String :=
  match result with
  | .ok value => " = " ++ value.text
  | .error error => " error: " ++ error.message

theorem Entry.report_eq (e : Entry) :
    e.report = toString e.line ++ ": " ++ e.expression ++ outcome e.result := by
  unfold Entry.report outcome
  cases e.result <;> rfl

theorem outcome_oneLine (expression : String) : OneLine (outcome (evaluate expression)) := by
  unfold outcome evaluate
  cases heval : Evaluation.ofText expression with
  | ok run => exact oneLine_append.2 ⟨by decide +kernel, run.value.text_oneLine⟩
  | error error =>
    exact oneLine_append.2 ⟨by decide +kernel, ExpressionError.message_oneLine heval⟩

theorem outcome_ne_empty (result : Except ExpressionError Binary64) : outcome result ≠ "" := by
  unfold outcome
  cases result <;> simp

theorem lineFeed_not_mem_numbered {source : String} {p : Nat × String} (h : p ∈ numbered source) :
    '\n' ∉ p.2.toList := by
  obtain ⟨i, text, htext, -, rfl⟩ := mem_numbered_iff.1 h
  have hline := Text.lineFeed_not_mem_lines (List.mem_of_getElem? htext)
  obtain ⟨before, after, hsplit, -⟩ := Text.trimChars_split text.toList
  intro hmem
  rw [Text.trim, String.toList_ofList] at hmem
  apply hline
  rw [hsplit]
  simp [hmem]

/-- The report on a line of a text is one line. -/
theorem report_isLine {source : String} {p : Nat × String} (h : p ∈ numbered source) :
    IsLine (Entry.ofNumbered p).report := by
  rw [Entry.report_eq]
  refine IsLine.append ?_ (outcome_oneLine p.2) (outcome_ne_empty _)
  have hnumber : '\n' ∉ (toString p.1).toList := (oneLine_toString p.1).isLine.lineFeed
  have hexpression := lineFeed_not_mem_numbered h
  simp only [Entry.ofNumbered, String.toList_append, List.mem_append, not_or]
  exact ⟨⟨hnumber, by decide⟩, hexpression⟩

end Batch

/-! ## Answers to expressions alone -/

namespace Response

/-- How a report goes on after the expression: with the value that is printed if the answer to the
expression alone is a value, and with the message if it is an error. -/
structure Continues (answer : Response) (rest : String) : Prop where
  value_iff : ∀ value, rest = " = " ++ value ↔
    answer = { status := 0, output := value ++ "\n", errors := "" }
  error_iff : ∀ message, rest = " error: " ++ message ↔
    answer = { status := 1, output := "", errors := "error: " ++ message ++ "\n" }
  either : (∃ value, rest = " = " ++ value) ∨ ∃ message, rest = " error: " ++ message

/-- What a batch answers to the lines that are not blank, if `answers` are the answers to single
expressions: a line of output for each, in order, and a count of the failures if there are any. -/
structure Collects (answers : String → Response) (numbered : List (Nat × String))
    (response : Response) : Prop where
  reports : List.Forall₂
    (fun p line => ∃ rest, line = toString p.1 ++ ": " ++ p.2 ++ rest ∧
      (answers p.2).Continues rest)
    numbered (Text.lines response.output)
  output : response.output = String.join ((Text.lines response.output).map (· ++ "\n"))
  status : response.status = if ∀ p ∈ numbered, (answers p.2).status = 0 then 0 else 1
  errors : response.errors =
    if response.status = 0 then ""
    else
      toString (numbered.countP fun p => (answers p.2).status ≠ 0) ++ " of " ++
        toString (Text.lines response.output).length ++ " expressions failed\n"

end Response

namespace Command

theorem evalResponse_continues (expression : String) :
    (evalResponse expression).Continues (Batch.outcome (evaluate expression)) := by
  have hdiffer (s t : String) : " = " ++ s ≠ " error: " ++ t := by
    intro h
    have hchars := congrArg String.toList h
    simp at hchars
  unfold evalResponse Batch.outcome
  cases evaluate expression with
  | ok value =>
    refine ⟨fun text => ?_, fun message => ?_, .inl ⟨_, rfl⟩⟩
    · simp [String.append_right_inj, String.append_left_inj]
    · simp [hdiffer]
  | error error =>
    refine ⟨fun text => ?_, fun message => ?_, .inr ⟨_, rfl⟩⟩
    · simp [(hdiffer _ _).symm, Response.failure]
    · simp [Response.failure, String.append_right_inj, String.append_left_inj]

/-- An entry fails exactly if the answer to its expression alone is a failure. -/
theorem failed_eq (p : Nat × String) :
    (Batch.Entry.ofNumbered p).failed = decide ((evalResponse p.2).status ≠ 0) := by
  unfold Batch.Entry.failed Batch.Entry.ofNumbered evalResponse
  cases evaluate p.2 <;> rfl

/-! ## Answers to batches -/

section

variable (bytes : List UInt8)

/-- The reports that a batch prints. -/
def reports : List String :=
  (Batch.numbered (decode bytes)).map fun p => (Batch.Entry.ofNumbered p).report

/-- How many of the expressions are answered with a failure. -/
def failures : Nat :=
  (Batch.numbered (decode bytes)).countP fun p => (evalResponse p.2).status ≠ 0

theorem batchResponse_eq :
    batchResponse bytes =
      { status := if failures bytes = 0 then 0 else 1
        output := String.join ((reports bytes).map (· ++ "\n"))
        errors :=
          if failures bytes = 0 then ""
          else
            toString (failures bytes) ++ " of " ++ toString (reports bytes).length ++
              " expressions failed\n" } := by
  have hfailures : (Batch.ofText (decode bytes)).countP Batch.Entry.failed = failures bytes := by
    rw [Batch.ofText_eq_map, List.countP_map, failures]
    exact List.countP_congr fun p _ => by rw [Function.comp_apply, failed_eq]
  have houtput : String.join ((Batch.ofText (decode bytes)).map fun e => e.report ++ "\n") =
      String.join ((reports bytes).map (· ++ "\n")) := by
    rw [Batch.ofText_eq_map, reports, List.map_map, List.map_map]
    rfl
  have hlength : (Batch.ofText (decode bytes)).length = (reports bytes).length := by
    rw [Batch.ofText_eq_map, reports, List.length_map, List.length_map]
  simp only [batchResponse, hfailures, houtput, hlength]
  split <;> rfl

/-- The output of a batch is read as its reports. -/
theorem lines_batchResponse : Text.lines (batchResponse bytes).output = reports bytes := by
  rw [batchResponse_eq]
  apply Text.lines_ended
  intro report hreport
  obtain ⟨p, hp, rfl⟩ := List.mem_map.1 hreport
  exact Batch.report_isLine hp

theorem failures_eq_zero_iff :
    failures bytes = 0 ↔
      ∀ p ∈ Batch.numbered (decode bytes), (evalResponse p.2).status = 0 := by
  unfold failures
  simp [List.countP_eq_zero]

theorem batchResponse_collects :
    Response.Collects evalResponse (Batch.numbered (decode bytes)) (batchResponse bytes) := by
  have hstatus : (batchResponse bytes).status = if failures bytes = 0 then 0 else 1 := by
    rw [batchResponse_eq]
  refine ⟨?_, ?_, ?_, ?_⟩
  · rw [lines_batchResponse, reports, List.forall₂_map_right_iff, List.forall₂_same]
    intro p hp
    exact ⟨_, Batch.Entry.report_eq _, evalResponse_continues p.2⟩
  · rw [lines_batchResponse, batchResponse_eq]
  · rw [hstatus]
    exact if_congr (failures_eq_zero_iff bytes) rfl rfl
  · rw [hstatus, lines_batchResponse, batchResponse_eq]
    by_cases hnone : failures bytes = 0
    · simp [hnone]
    · simp only [hnone, if_false]
      rfl

end

/-! ## The two commands -/

section

variable (prompt : Option String) (input : List UInt8)
  (readFile : String → Except FileError (List UInt8))

theorem answer_eval (expression : String) :
    answer prompt input readFile ["eval", expression] = evalResponse expression := by
  have hwords : String.intercalate " " [expression] = expression := String.intercalate_singleton
  show respond input readFile (.eval (String.intercalate " " [expression])) = _
  rw [hwords]
  rfl

theorem answer_batch {path : String} {bytes : List UInt8} (h : readFile path = .ok bytes) :
    answer prompt input readFile ["batch", path] = batchResponse bytes := by
  show respond input readFile (.batch path) = _
  rw [respond, h]

/-- A batch over a file answers its lines that are not blank as the program answers each expression
alone. -/
theorem batch_collects {path : String} {bytes : List UInt8} (h : readFile path = .ok bytes) :
    Response.Collects (fun expression => answer prompt input readFile ["eval", expression])
      (Batch.numbered (decode bytes)) (answer prompt input readFile ["batch", path]) := by
  simp only [answer_eval, answer_batch prompt input readFile h]
  exact batchResponse_collects bytes

end

/-- A value, a blank line, an expression after a byte that is no character and one that has no
value. -/
theorem batch_collects_mixed :
    let bytes := "1+2\r\n \n".toUTF8.toList ++ [0xFF] ++ "4*4\n(2-.)".toUTF8.toList
    let readFile : String → Except FileError (List UInt8) := fun _ => .ok bytes
    readFile "lines" = .ok bytes ∧
      Response.Collects (fun expression => answer none [] readFile ["eval", expression])
        (Batch.numbered (decode bytes)) (answer none [] readFile ["batch", "lines"]) := by
  intro bytes readFile
  exact ⟨rfl, batch_collects none [] readFile rfl⟩

end Command

end Calculator
