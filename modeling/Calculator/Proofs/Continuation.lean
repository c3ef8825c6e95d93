import Mathlib
import Calculator.Proofs.Transcript

/-!
# Sessions over input in two parts

Nothing passes from one line of a session to the next but the counts, so the session over lines in a
row is the session over the first ones without its last prompt and then the session over the others
(`exists_transcript_append`, `tally_append`), and a line that ends the session hides all after it
(`transcript_append_of_quits`). Input that is cut between two lines is answered that way
(`run_in_parts`).
-/

namespace Calculator.Session

variable {config : Config}

/-! ## Lines in a row -/

section Lines

variable {xs : List (List UInt8)}

theorem transcript_append_of_quits (h : ∃ line ∈ xs, quits line = true) (ys : List (List UInt8)) :
    transcript config (xs ++ ys) = transcript config xs := by
  induction xs with
  | nil => simp at h
  | cons line rest ih =>
    rw [List.cons_append, transcript, transcript]
    by_cases hquit : quits line = true
    · rw [reply_eq_quit_iff.2 hquit]
    · have hrest : ∃ line ∈ rest, quits line = true := by simpa [hquit] using h
      rw [ih hrest]

theorem tally_append_of_quits (h : ∃ line ∈ xs, quits line = true) (ys : List (List UInt8)) :
    tally config (xs ++ ys) = tally config xs := by
  induction xs with
  | nil => simp at h
  | cons line rest ih =>
    rw [List.cons_append, tally, tally]
    by_cases hquit : quits line = true
    · rw [reply_eq_quit_iff.2 hquit]
    · have hrest : ∃ line ∈ rest, quits line = true := by simpa [hquit] using h
      rw [ih hrest]

/-- What is written for lines that do not end the session stays before what follows. -/
theorem exists_transcript_append (h : ∀ line ∈ xs, quits line = false) :
    ∃ body, ∀ ys, transcript config (xs ++ ys) = body ++ transcript config ys := by
  induction xs with
  | nil => exact ⟨"", fun ys => String.empty_append.symm⟩
  | cons line rest ih =>
    obtain ⟨body, hbody⟩ := ih fun line hline => h line (.tail _ hline)
    have hgoes := (@reply_ne_quit_iff config line).2 (h line (.head _))
    cases hreply : reply config line with
    | quit => exact absurd hreply hgoes
    | blank =>
      refine ⟨config.prompt ++ body, fun ys => ?_⟩
      simp only [List.cons_append, transcript, hreply, hbody, String.append_assoc]
    | value shown =>
      refine ⟨config.prompt ++ (shown ++ body), fun ys => ?_⟩
      simp only [List.cons_append, transcript, hreply, hbody, String.append_assoc]
    | failure shown =>
      refine ⟨config.prompt ++ (shown ++ body), fun ys => ?_⟩
      simp only [List.cons_append, transcript, hreply, hbody, String.append_assoc]

theorem tally_append (h : ∀ line ∈ xs, quits line = false) (ys : List (List UInt8)) :
    tally config (xs ++ ys) = tally config xs + tally config ys := by
  induction xs with
  | nil => exact (Summary.zero_add _).symm
  | cons line rest ih =>
    have hgoes := (@reply_ne_quit_iff config line).2 (h line (.head _))
    rw [List.cons_append, tally, tally, ih fun line hline => h line (.tail _ hline)]
    cases hreply : reply config line with
    | quit => exact absurd hreply hgoes
    | blank => rfl
    | value shown => exact Summary.add_value _ _
    | failure shown => exact Summary.add_failure _ _

/-- What a session shows does not change its counts. -/
theorem tally_config (config config' : Config) (lines : List (List UInt8)) :
    tally config lines = tally config' lines := by
  induction lines with
  | nil => rfl
  | cons line rest ih =>
    rw [tally, tally, ih]
    unfold reply replyTo
    by_cases hblank : (expressionOn line).isEmpty = true
    · rw [if_pos hblank, if_pos hblank]
    · rw [if_neg hblank, if_neg hblank]
      by_cases hquit : isQuit (expressionOn line) = true
      · rw [if_pos hquit, if_pos hquit]
      · rw [if_neg hquit, if_neg hquit]
        cases Evaluation.ofText (expressionOn line) with
        | ok e => rfl
        | error error => rfl

end Lines

/-! ## Input in a row -/

/-- Whether the bytes end where a line may start: there are none, or a line feed is the last. -/
def EndsLine (bytes : List UInt8) : Prop := bytes = [] ∨ bytes.getLast? = some lineFeed

instance (bytes : List UInt8) : Decidable (EndsLine bytes) := inferInstanceAs (Decidable (_ ∨ _))

theorem lines_append {a : List UInt8} (ha : EndsLine a) (b : List UInt8) :
    Source.lines { bytes := a ++ b } =
      Source.lines { bytes := a } ++ Source.lines { bytes := b } := by
  rcases ha with rfl | hlast
  · rfl
  · obtain ⟨before, rfl⟩ := List.getLast?_eq_some_iff.1 hlast
    rw [List.append_assoc]
    exact Text.cutAfter_append (· == lineFeed) (beq_self_eq_true lineFeed) before b

/-- Input `a` that ends between two lines, and input `b` after it: if a line of `a` ends the
session, `b` makes no difference. If none does, the session over both writes what the session over
`a` writes before its last prompt and then what the session over `b` writes, and adds their counts
up. The counts are the same whatever the sessions show. -/
theorem run_in_parts (config : Config) {a : List UInt8} (ha : EndsLine a) (b : List UInt8) :
    ((∃ line ∈ Source.lines { bytes := a }, quits line = true) →
      run config { bytes := a ++ b } {} = run config { bytes := a } {}) ∧
    ((∀ line ∈ Source.lines { bytes := a }, quits line = false) →
      ∃ body out s t,
        run config { bytes := a } {} = (.ok s, { written := body ++ config.prompt.toUTF8 }) ∧
        run config { bytes := b } {} = (.ok t, { written := out }) ∧
        run config { bytes := a ++ b } {} =
          (.ok ⟨s.evaluated + t.evaluated, s.failed + t.failed⟩, { written := body ++ out })) ∧
    ∀ config', (run config' { bytes := a ++ b } {}).1 = (run config { bytes := a ++ b } {}).1 := by
  refine ⟨fun hquit => ?_, fun hgoes => ?_, fun config' => ?_⟩
  · rw [run_eq, run_eq, lines_append ha, transcript_append_of_quits hquit,
      tally_append_of_quits hquit]
  · obtain ⟨body, hbody⟩ := @exists_transcript_append config _ hgoes
    have hprompt := hbody []
    rw [List.append_nil, transcript] at hprompt
    refine ⟨body.toUTF8, _, tally config (Source.lines { bytes := a }), _, ?_, run_eq config b, ?_⟩
    · rw [run_eq, hprompt, toUTF8_append]
    · rw [run_eq, lines_append ha, tally_append hgoes, hbody, toUTF8_append]
      rfl
  · rw [run_eq, run_eq, tally_config config' config]

/-- `1+2`, a blank line and `+` before `3`, whose line has no end; and `:q` among blanks before
it. -/
theorem run_in_parts_each :
    let config : Config := { verbose := true }
    let a : List UInt8 := [49, 43, 50, 10, 10, 43, 10]
    let q : List UInt8 := [49, 10, 32, 58, 113, 13, 10]
    let b : List UInt8 := [51]
    (EndsLine a ∧ (∀ line ∈ Source.lines { bytes := a }, quits line = false) ∧
      ∃ body out s t,
        run config { bytes := a } {} = (.ok s, { written := body ++ config.prompt.toUTF8 }) ∧
        run config { bytes := b } {} = (.ok t, { written := out }) ∧
        run config { bytes := a ++ b } {} =
          (.ok ⟨s.evaluated + t.evaluated, s.failed + t.failed⟩, { written := body ++ out })) ∧
    EndsLine q ∧ (∃ line ∈ Source.lines { bytes := q }, quits line = true) ∧
      run config { bytes := q ++ b } {} = run config { bytes := q } {} := by
  intro config a q b
  have ha : EndsLine a := by decide
  have hq : EndsLine q := by decide
  have hgoes : ∀ line ∈ Source.lines { bytes := a }, quits line = false := by decide +kernel
  have hquit : ∃ line ∈ Source.lines { bytes := q }, quits line = true := by decide +kernel
  exact ⟨⟨ha, hgoes, (run_in_parts config ha b).2.1 hgoes⟩, hq, hquit,
    (run_in_parts config hq b).1 hquit⟩

end Calculator.Session
