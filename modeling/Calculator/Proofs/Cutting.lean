import Mathlib
import Calculator.Text.Blank
import Calculator.Text.Lines

/-!
# Lines one at a time

A list is cut at its first stop and what follows is cut on its own (`cutAfter_stop`), so that what
holds of the lines of a text is shown line by line (`cut_induction`). A line's end is blank, so that
trimming a line drops it (`trim_dropLineEnd`). Lines, each ended by a line feed, are the lines of the
text they make up (`lines_ended`), and the lines of any text have no line feed in them
(`lineFeed_not_mem_lines`).
-/

namespace Calculator.Text

/-! ## One line -/

section Cut

variable {α : Type} {stop : α → Bool}

theorem cutAfter_last {xs : List α} (h : ∀ x ∈ xs, stop x = false) (hne : xs ≠ []) :
    cutAfter stop xs = [xs] := by
  induction xs with
  | nil => exact absurd rfl hne
  | cons x rest ih =>
    rw [cutAfter, h x (.head _), if_neg Bool.false_ne_true]
    cases rest with
    | nil => rfl
    | cons y rest => rw [ih (fun z hz => h z (.tail _ hz)) (List.cons_ne_nil _ _)]

theorem cutAfter_stop {piece : List α} {x : α} (h : ∀ y ∈ piece, stop y = false)
    (hx : stop x = true) (after : List α) :
    cutAfter stop (piece ++ x :: after) = (piece ++ [x]) :: cutAfter stop after := by
  induction piece with
  | nil => simp [cutAfter, hx]
  | cons y piece ih =>
    rw [List.cons_append, cutAfter, h y (.head _), if_neg Bool.false_ne_true,
      ih fun z hz => h z (.tail _ hz)]
    rfl

/-- What holds of a list without a stop, and goes over from the rest of a list to the rest with a
first piece before it, holds of every list. -/
theorem cut_induction (stop : α → Bool) {motive : List α → Prop}
    (last : ∀ xs, (∀ x ∈ xs, stop x = false) → motive xs)
    (cut : ∀ piece x after, (∀ y ∈ piece, stop y = false) → stop x = true → motive after →
      motive (piece ++ x :: after)) (xs : List α) : motive xs := by
  -- By length: what follows the first stop is some tail, not the next one.
  induction hlen : xs.length using Nat.strongRecOn generalizing xs with
  | ind n ih =>
    have hsplit : xs.takeWhile (!stop ·) ++ xs.dropWhile (!stop ·) = xs :=
      List.takeWhile_append_dropWhile
    have hpiece : ∀ y ∈ xs.takeWhile (!stop ·), stop y = false := fun y hy => by
      simpa using List.all_eq_true.1 List.all_takeWhile y hy
    cases hd : xs.dropWhile (!stop ·) with
    | nil =>
      rw [hd, List.append_nil] at hsplit
      exact last xs (hsplit ▸ hpiece)
    | cons x after =>
      have hstop := List.head?_dropWhile_not (!stop ·) xs
      rw [hd] at hstop hsplit
      have hlt : after.length < n := by
        rw [← hlen, ← hsplit, List.length_append, List.length_cons]
        omega
      rw [← hsplit]
      exact cut _ x after hpiece (by simpa using hstop) (ih _ hlt after rfl)

end Cut

/-! ## Trimming a line -/

theorem trimChars_concat {c : Char} (h : isBlank c = true) (cs : List Char) :
    trimChars (cs ++ [c]) = trimChars cs := by
  unfold trimChars
  rw [List.dropWhile_append]
  cases hd : cs.dropWhile isBlank with
  | nil => simp [h]
  | cons d ds => simp [h]

/-- Without its end a line has the same characters between the blank ones around them. -/
theorem trimChars_dropLineEnd (line : List Char) :
    trimChars (dropLineEnd line) = trimChars line := by
  have hlf : isBlank '\n' = true := by decide
  have hcr : isBlank '\r' = true := by decide
  unfold dropLineEnd
  split
  · rename_i rest hrev
    rw [List.reverse_eq_cons_iff, List.reverse_cons] at hrev
    rw [hrev, trimChars_concat hlf, trimChars_concat hcr]
  · rename_i rest _ hrev
    rw [List.reverse_eq_cons_iff] at hrev
    rw [hrev, trimChars_concat hlf]
  · rfl

theorem trim_dropLineEnd (line : List Char) :
    trim (String.ofList (dropLineEnd line)) = trim (String.ofList line) := by
  rw [trim, trim, String.toList_ofList, String.toList_ofList, trimChars_dropLineEnd]

/-! ## Texts of one line -/

/-- A text without line feeds and carriage returns. -/
def OneLine (text : String) : Prop := ∀ c ∈ text.toList, c ≠ '\n' ∧ c ≠ '\r'

instance (text : String) : Decidable (OneLine text) :=
  decidable_of_iff (text.toList.all fun c => c != '\n' && c != '\r') (by simp [OneLine])

theorem oneLine_append {s t : String} : OneLine (s ++ t) ↔ OneLine s ∧ OneLine t := by
  unfold OneLine
  simp only [String.toList_append, List.mem_append]
  constructor
  · exact fun h => ⟨fun c hc => h c (.inl hc), fun c hc => h c (.inr hc)⟩
  · exact fun h c hc => hc.elim (h.1 c) (h.2 c)

/-- A text without line feeds whose last character is no carriage return. -/
structure IsLine (text : String) : Prop where
  lineFeed : '\n' ∉ text.toList
  carriageReturn : text.toList.getLast? ≠ some '\r'

theorem OneLine.isLine {text : String} (h : OneLine text) : IsLine text :=
  ⟨fun hmem => (h _ hmem).1 rfl, fun hlast => (h _ (List.mem_of_getLast? hlast)).2 rfl⟩

/-- What comes before a text of one line may have carriage returns. -/
theorem IsLine.append {s t : String} (hs : '\n' ∉ s.toList) (ht : OneLine t) (hne : t ≠ "") :
    IsLine (s ++ t) := by
  have hchars : t.toList ≠ [] := fun h => hne (String.toList_eq_nil_iff.1 h)
  constructor
  · rw [String.toList_append, List.mem_append, not_or]
    exact ⟨hs, ht.isLine.lineFeed⟩
  · rw [String.toList_append, List.getLast?_append_of_ne_nil _ hchars]
    exact ht.isLine.carriageReturn

/-- A line feed at the end of a line goes, and so does a carriage return before it. -/
theorem dropLineEnd_terminated (cs : List Char) :
    dropLineEnd (cs ++ ['\n']) = if cs.getLast? = some '\r' then cs.dropLast else cs := by
  unfold dropLineEnd
  rcases List.eq_nil_or_concat' cs with rfl | ⟨ds, c, rfl⟩
  · rfl
  · by_cases hc : c = '\r' <;> simp [hc]

/-- Lines, with a line feed after each, are read as these lines. -/
theorem lines_ended {texts : List String} (h : ∀ text ∈ texts, IsLine text) :
    lines (String.join (texts.map (· ++ "\n"))) = texts := by
  induction texts with
  | nil => rfl
  | cons text rest ih =>
    have htext := h text (.head _)
    have hchars : ∀ c ∈ text.toList, isLineFeed c = false := by
      intro c hc
      rw [isLineFeed, beq_eq_false_iff_ne]
      exact fun heq => htext.lineFeed (heq ▸ hc)
    have hcut := cutAfter_stop hchars (show isLineFeed '\n' = true from rfl)
    have hrest := ih fun t ht => h t (.tail _ ht)
    rw [lines] at hrest ⊢
    rw [List.map_cons, String.join_cons, String.append_assoc, String.toList_append,
      String.toList_append, show "\n".toList = ['\n'] from rfl, List.singleton_append, hcut,
      List.map_cons, hrest, dropLineEnd_terminated, if_neg htext.carriageReturn,
      String.ofList_toList]

/-- Texts of one line, with a line feed after each, are read as these lines. -/
theorem lines_terminated {texts : List String} (h : ∀ text ∈ texts, OneLine text) :
    lines (String.join (texts.map (· ++ "\n"))) = texts :=
  lines_ended fun text htext => (h text htext).isLine

/-! ## The lines of any text -/

theorem dropLineEnd_of_not_mem {cs : List Char} (h : '\n' ∉ cs) : dropLineEnd cs = cs := by
  unfold dropLineEnd
  split
  · rename_i rest hrev
    exact absurd (List.mem_reverse.1 (hrev ▸ .head _)) h
  · rename_i rest _ hrev
    exact absurd (List.mem_reverse.1 (hrev ▸ .head _)) h
  · rfl

theorem lineFeed_not_mem {cs : List Char} (h : ∀ c ∈ cs, isLineFeed c = false) : '\n' ∉ cs :=
  fun hmem => absurd (h _ hmem) (by decide)

theorem lineFeed_not_mem_piece {cs piece : List Char} (h : piece ∈ cutAfter isLineFeed cs) :
    '\n' ∉ dropLineEnd piece := by
  induction cs using cut_induction isLineFeed with
  | last xs hxs =>
    by_cases hne : xs = []
    · rw [hne] at h
      cases h
    · rw [cutAfter_last hxs hne, List.mem_singleton] at h
      rw [h, dropLineEnd_of_not_mem (lineFeed_not_mem hxs)]
      exact lineFeed_not_mem hxs
  | cut first x after hfirst hx ih =>
    obtain rfl : x = '\n' := by simpa [isLineFeed] using hx
    rw [cutAfter_stop hfirst hx, List.mem_cons] at h
    rcases h with rfl | h
    · rw [dropLineEnd_terminated]
      split
      · exact fun hmem => lineFeed_not_mem hfirst (List.mem_of_mem_dropLast hmem)
      · exact lineFeed_not_mem hfirst
    · exact ih h

/-- No line has a line feed in it. -/
theorem lineFeed_not_mem_lines {source text : String} (h : text ∈ lines source) :
    '\n' ∉ text.toList := by
  obtain ⟨piece, hpiece, rfl⟩ := List.mem_map.1 h
  rw [String.toList_ofList]
  exact lineFeed_not_mem_piece hpiece

end Calculator.Text
