import Mathlib
import Calculator.Batch
import Calculator.Proofs.Answers
import Calculator.Proofs.Decoding
import Calculator.Proofs.NumberedLines
import Calculator.Proofs.Transcript

/-!
# Sessions and batches agree

A session decodes each line of bytes by itself, a batch decodes all bytes and then cuts the text
into lines; the entries are the same (`Batch.ofText_decode`). A session without a prompt that shows
results only therefore answers exactly the entries before the first one that ends a session, one
line each (`Session.run_eq_batch`).
-/

namespace Calculator

open Text (OneLine oneLine_append)
open Text.Utf8 (decode decodeFrom)

namespace Batch

theorem entry?_eq (text : String) (line : Nat) :
    entry? text line =
      if (Text.trim text).isEmpty then none
      else some ⟨line, Text.trim text, evaluate (Text.trim text)⟩ := rfl

/-- The lines of the bytes, each decoded by itself, have the same entries as the text. -/
theorem ofText_decode (bytes : List UInt8) :
    ofText (decode bytes) =
      ((Text.cutAfter (· == Session.lineFeed) bytes).zipIdx 1).filterMap
        fun piece => entry? (decode piece.1) piece.2 := by
  rw [ofText, Text.lines, decode, String.toList_ofList, Text.Utf8.cutAfter_decodeFrom, List.map_map,
    List.zipIdx_map, List.filterMap_map]
  refine congrArg (List.filterMap · _) (funext fun piece => ?_)
  obtain ⟨piece, line⟩ := piece
  dsimp only [Function.comp_apply, Prod.map_apply, id]
  rw [entry?_eq, Text.trim_dropLineEnd]
  rfl

theorem result_of_mem_ofText {source : String} {e : Entry} (h : e ∈ ofText source) :
    e.result = evaluate e.expression := by
  rw [ofText_eq_map] at h
  obtain ⟨p, -, rfl⟩ := List.mem_map.1 h
  rfl

namespace Entry

/-- What a session that shows results only answers. -/
def answer (e : Entry) : String :=
  match e.result with
  | .ok value => "Result: " ++ value.text
  | .error error => "error: " ++ error.message

theorem answer_oneLine {e : Entry} (h : e.result = evaluate e.expression) : OneLine e.answer := by
  rw [answer, h, evaluate]
  cases heval : Evaluation.ofText e.expression with
  | ok run => exact oneLine_append.2 ⟨by decide +kernel, run.value.text_oneLine⟩
  | error error =>
    exact oneLine_append.2 ⟨by decide +kernel, ExpressionError.message_oneLine heval⟩

end Entry

/-- The answers to entries, each ended by a line feed. -/
def answers (entries : List Entry) : String := String.join (entries.map (·.answer ++ "\n"))

theorem lines_answers {entries : List Entry}
    (h : ∀ e ∈ entries, e.result = evaluate e.expression) :
    Text.lines (answers entries) = entries.map Entry.answer := by
  have hline : ∀ text ∈ entries.map Entry.answer, OneLine text := by
    intro text htext
    obtain ⟨e, he, rfl⟩ := List.mem_map.1 htext
    exact Entry.answer_oneLine (h e he)
  have hlines := Text.lines_terminated hline
  rw [List.map_map] at hlines
  exact hlines

end Batch

namespace Session

open Batch (Entry entry? entry?_eq)

/-- A session without a prompt that shows results only. -/
def bare : Config := { prompt := "" }

theorem shown_bare (run : Evaluation) : shown bare run = "Result: " ++ run.value.text ++ "\n" := by
  simp only [shown, bare, Bool.or_self, Bool.false_eq_true, if_false, String.empty_append]

/-- A blank line has no reply. -/
theorem reply_bare_none {line : List UInt8} {n : Nat} (h : entry? (decode line) n = none) :
    reply bare line = .blank := by
  rw [entry?_eq] at h
  split at h
  · rename_i hblank
    rw [reply, expressionOn, if_pos hblank]
  · cases h

/-- Any other line is replied to with the answer to its entry, unless it ends the session. -/
theorem reply_bare_some {line : List UInt8} {n : Nat} {e : Entry}
    (h : entry? (decode line) n = some e) :
    reply bare line =
      if isQuit e.expression then .quit
      else if e.failed then .failure (e.answer ++ "\n")
      else .value (e.answer ++ "\n") := by
  rw [entry?_eq] at h
  split at h
  · cases h
  · rename_i hblank
    obtain rfl := Option.some.inj h
    rw [reply, expressionOn, if_neg hblank]
    split
    · rfl
    · rw [replyTo, Entry.failed, Entry.answer, evaluate]
      generalize Evaluation.ofText _ = outcome
      cases outcome with
      | ok run => exact congrArg Reply.value (shown_bare run)
      | error error => rfl

/-- The entries before the first one that ends a session. -/
def beforeQuit (entries : List Entry) : List Entry := entries.takeWhile (!isQuit ·.expression)

/-- The entries of lines, counted from a number, before the first one that ends a session. -/
def entriesFrom (n : Nat) (lines : List (List UInt8)) : List Entry :=
  beforeQuit ((lines.zipIdx n).filterMap fun line => entry? (decode line.1) line.2)

section Entries

variable {line : List UInt8} {n : Nat} (rest : List (List UInt8))

theorem entriesFrom_cons_none (h : entry? (decode line) n = none) :
    entriesFrom n (line :: rest) = entriesFrom (n + 1) rest := by
  unfold entriesFrom
  rw [List.zipIdx_cons, List.filterMap_cons_none (by exact h)]

theorem entriesFrom_cons_some {e : Entry} (h : entry? (decode line) n = some e) :
    entriesFrom n (line :: rest) =
      if isQuit e.expression then [] else e :: entriesFrom (n + 1) rest := by
  unfold entriesFrom beforeQuit
  rw [List.zipIdx_cons, List.filterMap_cons_some (by exact h), List.takeWhile_cons]
  cases isQuit e.expression <;> rfl

end Entries

theorem transcript_bare (n : Nat) (lines : List (List UInt8)) :
    transcript bare lines = Batch.answers (entriesFrom n lines) := by
  induction lines generalizing n with
  | nil => rfl
  | cons line rest ih =>
    rw [transcript, show bare.prompt = "" from rfl, String.empty_append]
    cases h : entry? (decode line) n with
    | none => rw [reply_bare_none h, entriesFrom_cons_none rest h, ← ih]
    | some e =>
      rw [reply_bare_some h, entriesFrom_cons_some rest h]
      by_cases hquit : isQuit e.expression = true
      · rw [if_pos hquit, if_pos hquit]
        rfl
      · rw [if_neg hquit, if_neg hquit, Batch.answers, List.map_cons, String.join_cons,
          ← Batch.answers, ← ih]
        cases e.failed <;> rfl

theorem tally_bare (n : Nat) (lines : List (List UInt8)) :
    tally bare lines =
      ⟨(entriesFrom n lines).countP (!·.failed), (entriesFrom n lines).countP (·.failed)⟩ := by
  induction lines generalizing n with
  | nil => rfl
  | cons line rest ih =>
    rw [tally, ih (n + 1)]
    cases h : entry? (decode line) n with
    | none => rw [reply_bare_none h, entriesFrom_cons_none rest h]
    | some e =>
      rw [reply_bare_some h, entriesFrom_cons_some rest h]
      by_cases hquit : isQuit e.expression = true
      · rw [if_pos hquit, if_pos hquit]
        rfl
      · rw [if_neg hquit, if_neg hquit, List.countP_cons, List.countP_cons]
        cases e.failed <;> rfl

/-- The entries of a batch over the input, before the first one that ends a session. -/
def entriesOf (input : List UInt8) : List Entry := beforeQuit (Batch.ofText (decode input))

theorem entriesOf_eq (input : List UInt8) :
    entriesOf input = entriesFrom 1 (Source.lines { bytes := input }) :=
  congrArg beforeQuit (Batch.ofText_decode input)

/-- A session without a prompt that shows results only answers the entries of a batch over the same
bytes, each with one line, up to the first entry that ends a session. -/
theorem run_eq_batch (input : List UInt8) :
    run bare { bytes := input } {} =
        (.ok ⟨(entriesOf input).countP (!·.failed), (entriesOf input).countP (·.failed)⟩,
          { written := (Batch.answers (entriesOf input)).toUTF8 }) ∧
      Text.lines (Batch.answers (entriesOf input)) = (entriesOf input).map Entry.answer := by
  constructor
  · rw [run_eq, transcript_bare 1, tally_bare 1, ← entriesOf_eq]
  · refine Batch.lines_answers fun e he => ?_
    have hmem : e ∈ Batch.ofText (decode input) := (List.takeWhile_sublist _).mem he
    exact Batch.result_of_mem_ofText hmem

end Session

end Calculator
