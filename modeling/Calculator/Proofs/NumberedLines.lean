import Mathlib
import Calculator.Batch
import Calculator.Proofs.Cutting
import Calculator.Proofs.Joining

/-!
# Numbered lines

A batch evaluates the lines of a text that are not blank and keeps their numbers
(`Batch.ofText_eq_map`). The lines after a line feed are the lines of what follows it, counted on from
the line feeds before (`Batch.numberedFrom_lines_append`), so that a batch over two texts is a batch
over each (`Batch.ofText_lines`). Blank characters around an expression are no part of its tokens, so
that a line has the same value with and without them (`evaluate_trim`).
-/

namespace Calculator

/-! ## Blank characters around an expression -/

namespace Text

theorem trimChars_split (cs : List Char) :
    ∃ before after, cs = before ++ trimChars cs ++ after ∧ (∀ c ∈ before, isBlank c = true) ∧
      ∀ c ∈ after, isBlank c = true := by
  have hblank (ds : List Char) : ∀ c ∈ ds.takeWhile isBlank, isBlank c = true :=
    List.all_eq_true.1 List.all_takeWhile
  refine ⟨cs.takeWhile isBlank, ((cs.dropWhile isBlank).reverse.takeWhile isBlank).reverse, ?_,
    hblank cs, fun c hc => hblank _ c (List.mem_reverse.1 hc)⟩
  rw [trimChars, List.append_assoc, ← List.reverse_append, List.takeWhile_append_dropWhile,
    List.reverse_reverse, List.takeWhile_append_dropWhile]

theorem isFiller_of_isBlank {c : Char} (h : isBlank c = true) : Token.isFiller c = true := by
  have hsymbol : c ≠ '.' ∧ c ≠ '+' ∧ c ≠ '-' ∧ c ≠ '*' ∧ c ≠ '/' ∧ c ≠ '(' ∧ c ≠ ')' := by
    refine ⟨?_, ?_, ?_, ?_, ?_, ?_, ?_⟩ <;> rintro rfl <;> exact absurd h (by decide)
  have hdigit : c.isDigit = false := by
    -- The digits lie between two of the ranges of blank characters.
    rw [Bool.eq_false_iff]
    intro hdigit
    simp only [Char.isDigit, Bool.and_eq_true, decide_eq_true_eq] at hdigit
    have hlow : 48 ≤ c.toNat := hdigit.1
    have hhigh : c.toNat ≤ 57 := hdigit.2
    simp [isBlank, blankRanges] at h
    omega
  simp [Token.isFiller, hdigit, hsymbol]

end Text

theorem Token.tokenize_trim (text : String) : tokenize (Text.trim text) = tokenize text := by
  obtain ⟨before, after, hsplit, hbefore, hafter⟩ := Text.trimChars_split text.toList
  have hfiller : ∀ c ∈ after, isFiller c = true :=
    fun c hc => Text.isFiller_of_isBlank (hafter c hc)
  have hstop : startsLiteral after = false := by
    cases after with
    | nil => rfl
    | cons c rest => exact startsLiteral_of_isFiller (hfiller c (.head _)) rest
  have hnone (wanted : Bool) : scan wanted after = [] := by
    have hgap := scan_gap hfiller wanted []
    rwa [List.append_nil, scan] at hgap
  unfold tokenize
  rw [hsplit, List.append_assoc, scan_gap fun c hc => Text.isFiller_of_isBlank (hbefore c hc),
    scan_append hstop, hnone, List.append_nil, Text.trim, String.toList_ofList]

theorem evaluate_trim (text : String) : evaluate (Text.trim text) = evaluate text := by
  simp only [evaluate, Evaluation.ofText, Token.tokenize_trim]

/-! ## Lines of a text -/

namespace Text

theorem count_lineFeed_eq_zero {cs : List Char} (h : ∀ c ∈ cs, isLineFeed c = false) :
    cs.count '\n' = 0 :=
  List.count_eq_zero.2 (lineFeed_not_mem h)

theorem lines_append (a b : String) : lines (a ++ "\n" ++ b) = lines (a ++ "\n") ++ lines b := by
  simp only [lines, String.toList_append, ← List.map_append]
  rw [List.append_assoc]
  exact congrArg _ (cutAfter_append isLineFeed rfl a.toList b.toList)

/-- A text that ends with a line feed has as many lines as line feeds. -/
theorem length_lines_terminated (a : String) :
    (lines (a ++ "\n")).length = a.toList.count '\n' + 1 := by
  rw [lines, List.length_map, String.toList_append]
  show (cutAfter isLineFeed (a.toList ++ ['\n'])).length = _
  induction a.toList using cut_induction isLineFeed with
  | last xs h =>
    rw [cutAfter_stop h rfl, count_lineFeed_eq_zero h]
    rfl
  | cut piece x after h hx ih =>
    obtain rfl : x = '\n' := by simpa [isLineFeed] using hx
    rw [List.append_assoc, List.cons_append, cutAfter_stop h hx, List.length_cons, ih,
      List.count_append, List.count_cons_self, count_lineFeed_eq_zero h]
    omega

theorem trim_terminated (cs : List Char) :
    trim (String.ofList (dropLineEnd (cs ++ ['\n']))) = trim (String.ofList (dropLineEnd cs)) := by
  rw [trim_dropLineEnd, trim_dropLineEnd, trim, trim, String.toList_ofList, String.toList_ofList,
    trimChars_concat (by decide)]

end Text

namespace Batch

/-- The lines that are not blank, without the blank characters around them and with their numbers;
the first line has the number `n`. -/
def numberedFrom (n : Nat) (lines : List String) : List (Nat × String) :=
  ((lines.zipIdx n).map fun (text, line) => (line, Text.trim text)).filter
    fun (_, expression) => !expression.isEmpty

/-- The lines of a text that are not blank. -/
def numbered (source : String) : List (Nat × String) := numberedFrom 1 (Text.lines source)

variable {n : Nat}

theorem numberedFrom_cons (text : String) (rest : List String) :
    numberedFrom n (text :: rest) =
      (if (Text.trim text).isEmpty then [] else [(n, Text.trim text)]) ++
        numberedFrom (n + 1) rest := by
  unfold numberedFrom
  by_cases hblank : Text.trim text = "" <;> simp [List.zipIdx_cons, hblank]

theorem numberedFrom_append (xs ys : List String) :
    numberedFrom n (xs ++ ys) = numberedFrom n xs ++ numberedFrom (n + xs.length) ys := by
  unfold numberedFrom
  rw [List.zipIdx_append, List.map_append, List.filter_append]

/-- A line with its number counted on from `k`. -/
def countOn (k : Nat) (p : Nat × String) : Nat × String := (p.1 + k, p.2)

theorem numberedFrom_add (k : Nat) (lines : List String) :
    numberedFrom (n + k) lines = (numberedFrom n lines).map (countOn k) := by
  induction lines generalizing n with
  | nil => rfl
  | cons text rest ih =>
    rw [numberedFrom_cons, numberedFrom_cons, Nat.add_right_comm, ih, List.map_append]
    split <;> rfl

/-- A line feed at the end of a text adds no line that is not blank. -/
theorem numberedFrom_terminated (a : String) :
    numberedFrom n (Text.lines (a ++ "\n")) = numberedFrom n (Text.lines a) := by
  unfold Text.lines
  rw [String.toList_append]
  show numberedFrom n ((Text.cutAfter Text.isLineFeed (a.toList ++ ['\n'])).map _) = _
  induction a.toList using Text.cut_induction Text.isLineFeed generalizing n with
  | last xs h =>
    rw [Text.cutAfter_stop h rfl]
    by_cases hne : xs = []
    · rw [hne]
      rfl
    · rw [Text.cutAfter_last h hne, List.map_cons, List.map_cons, numberedFrom_cons,
        numberedFrom_cons, Text.trim_terminated]
      rfl
  | cut piece x after h hx ih =>
    rw [List.append_assoc, List.cons_append, Text.cutAfter_stop h hx, Text.cutAfter_stop h hx,
      List.map_cons, List.map_cons, numberedFrom_cons, numberedFrom_cons, ih]

/-- The lines of two texts with a line feed between them are the lines of each. -/
theorem numbered_append (a b : String) :
    numbered (a ++ "\n" ++ b) =
      numbered a ++ (numbered b).map (countOn (a.toList.count '\n' + 1)) := by
  unfold numbered
  rw [Text.lines_append, numberedFrom_append, Text.length_lines_terminated, numberedFrom_add,
    numberedFrom_terminated]

/-- The lines that are not blank are in order. -/
theorem pairwise_numbered (source : String) : (numbered source).Pairwise (·.1 < ·.1) := by
  have hlines : (((Text.lines source).zipIdx 1).map fun p => (p.2, Text.trim p.1)).Pairwise
      (·.1 < ·.1) := by
    rw [List.pairwise_map, ← List.pairwise_map (f := Prod.snd) (R := (· < ·)), List.zipIdx_map_snd]
    exact List.pairwise_lt_range'
  exact hlines.filter _

theorem mem_numbered_iff {source : String} {p : Nat × String} :
    p ∈ numbered source ↔
      ∃ i text, (Text.lines source)[i]? = some text ∧ Text.trim text ≠ "" ∧
        p = (i + 1, Text.trim text) := by
  unfold numbered numberedFrom
  simp only [List.mem_filter, List.mem_map, Prod.exists, List.mk_mem_zipIdx_iff_le_and_getElem?_sub]
  constructor
  · rintro ⟨⟨text, line, ⟨hline, htext⟩, rfl⟩, hne⟩
    exact ⟨line - 1, text, htext, by simpa using hne, by rw [Nat.sub_add_cancel hline]⟩
  · rintro ⟨i, text, htext, hne, rfl⟩
    exact ⟨⟨text, i + 1, ⟨Nat.le_add_left 1 i, htext⟩, rfl⟩, by simpa using hne⟩

/-! ## Entries -/

namespace Entry

/-- The entry with its line counted on from `k`. -/
def later (k : Nat) (e : Entry) : Entry := { e with line := e.line + k }

/-- The entry of a line that is not blank. -/
def ofNumbered (p : Nat × String) : Entry := ⟨p.1, p.2, evaluate p.2⟩

end Entry

theorem ofText_eq_map (source : String) : ofText source = (numbered source).map Entry.ofNumbered := by
  unfold ofText numbered
  generalize 1 = n
  induction Text.lines source generalizing n with
  | nil => rfl
  | cons text rest ih =>
    rw [List.zipIdx_cons, List.filterMap_cons, numberedFrom_cons, List.map_append, ← ih]
    unfold entry?
    by_cases hblank : Text.trim text = "" <;> simp [hblank, Entry.ofNumbered]

/-- The entries put together from three lists: the numbers of the lines that are not blank, the
expressions on them and the results of these. -/
def ofColumns (source : String) : List Entry :=
  let (numbers, expressions) := (numbered source).unzip
  ((numbers.zip expressions).zip (evaluateAll expressions)).map
    fun ((line, expression), result) => ⟨line, expression, result⟩

theorem ofColumns_eq (source : String) : ofColumns source = ofText source := by
  rw [ofText_eq_map]
  unfold ofColumns evaluateAll
  induction numbered source with
  | nil => rfl
  | cons p rest ih => exact congrArg (Entry.ofNumbered p :: ·) ih

/-- A batch over two texts with a line feed between them is the batch over the first and then the
batch over the second, with its lines counted on from those of the first. In every batch the entries
are the lines that are not blank, in order and with increasing numbers, and the result of an entry is
the value of its line with and without the blank characters around it; numbers, expressions and
results that are collected in three lists give the same entries. -/
theorem ofText_lines :
    (∀ a b : String,
      ofText (a ++ "\n" ++ b) =
        ofText a ++ (ofText b).map (.later (a.toList.count '\n' + 1))) ∧
    ∀ source : String,
      ofColumns source = ofText source ∧
      (ofText source).Pairwise (·.line < ·.line) ∧
      ∀ e : Entry, e ∈ ofText source ↔
        ∃ i text, (Text.lines source)[i]? = some text ∧ Text.trim text ≠ "" ∧
          e.line = i + 1 ∧ e.expression = Text.trim text ∧ e.result = evaluate text ∧
          e.result = evaluate (Text.trim text) := by
  refine ⟨fun a b => ?_, fun source => ⟨ofColumns_eq source, ?_, fun e => ?_⟩⟩
  · rw [ofText_eq_map, numbered_append, List.map_append, List.map_map, ofText_eq_map, ofText_eq_map,
      List.map_map]
    rfl
  · rw [ofText_eq_map, List.pairwise_map]
    exact pairwise_numbered source
  · rw [ofText_eq_map, List.mem_map]
    constructor
    · rintro ⟨p, hp, rfl⟩
      obtain ⟨i, text, htext, hne, rfl⟩ := mem_numbered_iff.1 hp
      exact ⟨i, text, htext, hne, rfl, rfl, evaluate_trim text, rfl⟩
    · rintro ⟨i, text, htext, hne, hline, hexpression, -, hresult⟩
      refine ⟨(i + 1, Text.trim text), mem_numbered_iff.2 ⟨i, text, htext, hne, rfl⟩, ?_⟩
      cases e
      simp_all [Entry.ofNumbered]

end Batch

end Calculator
