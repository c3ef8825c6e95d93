import Mathlib
import Calculator.Proofs.BranchLines
import Calculator.Proofs.Entities

/-!
# Tags in a text

How often a pattern stands in a text is found part by part, if the parts are cut where the pattern
cannot go on (`Text.occurrences_append`). The start of a tag is found in an element once if the
element has this tag, and as often as it is found in the element's content
(`Text.Xml.occurrences_element`); it is not found in a text without `<`.
-/

namespace Calculator.Text

/-- How often a pattern stands in a text. -/
def occurrences (pattern text : String) : Nat :=
  text.toList.tails.countP (pattern.toList.isPrefixOf ·)

/-! ## Patterns -/

/-- No pattern goes on over a character that it does not have. -/
theorem isPrefix_append_cons_iff {α : Type} {pattern xs ys : List α} {y : α} (h : y ∉ pattern) :
    pattern <+: xs ++ y :: ys ↔ pattern <+: xs := by
  refine ⟨fun hprefix => ?_, fun hprefix => hprefix.trans (List.prefix_append ..)⟩
  rcases List.prefix_or_prefix_of_prefix hprefix (List.prefix_append ..) with hshort | hlong
  · exact hshort
  · -- The pattern would go on over `y`, if it went on at all.
    obtain ⟨more, rfl⟩ := hlong
    rw [List.prefix_append_right_inj] at hprefix
    cases more with
    | nil => simp
    | cons c more =>
      obtain ⟨rfl, -⟩ := List.cons_prefix_cons.1 hprefix
      simp at h

/-- A text is cut before a character that the pattern can only start with. -/
theorem occurrences_append {pattern text more : String} {c d : Char} {rest cs : List Char}
    (hpattern : pattern.toList = c :: rest) (hmore : more.toList = d :: cs) (h : d ∉ rest) :
    occurrences pattern (text ++ more) = occurrences pattern text + occurrences pattern more := by
  rw [occurrences, occurrences, occurrences, String.toList_append, hpattern, hmore]
  induction text.toList with
  | nil => simp
  | cons x xs ih =>
    have hstart : (c :: rest).isPrefixOf (x :: (xs ++ d :: cs)) =
        (c :: rest).isPrefixOf (x :: xs) := by
      rw [Bool.eq_iff_iff, List.isPrefixOf_iff_prefix, List.isPrefixOf_iff_prefix,
        List.cons_prefix_cons, List.cons_prefix_cons, isPrefix_append_cons_iff h]
    rw [List.cons_append, List.tails_cons, List.tails_cons, List.countP_cons, List.countP_cons, ih,
      hstart]
    omega

/-- A pattern is not found where its first character is not. -/
theorem occurrences_append_of_not_mem {pattern text : String} {c : Char} {rest : List Char}
    (hpattern : pattern.toList = c :: rest) (h : c ∉ text.toList) (more : String) :
    occurrences pattern (text ++ more) = occurrences pattern more := by
  rw [occurrences, occurrences, String.toList_append, hpattern]
  generalize text.toList = xs at h
  induction xs with
  | nil => rfl
  | cons x xs ih =>
    rw [List.mem_cons, not_or] at h
    have hnot : (c :: rest).isPrefixOf (x :: (xs ++ more.toList)) = false := by
      simp [List.isPrefixOf, h.1]
    rw [List.cons_append, List.tails_cons, List.countP_cons, hnot, ih h.2]
    rfl

/-- A pattern without line ends is found line by line. -/
theorem occurrences_closed {pattern : String} {c : Char} {rest : List Char}
    (hpattern : pattern.toList = c :: rest) (h : '\n' ∉ c :: rest) (lines : List String) :
    occurrences pattern (closed lines) = (lines.map (occurrences pattern)).sum := by
  rw [List.mem_cons, not_or] at h
  induction lines with
  | nil => simp [occurrences, closed, hpattern]
  | cons line lines ih =>
    have hend : ("\n" ++ closed lines).toList = '\n' :: (closed lines).toList := by simp
    have hnext : occurrences pattern ("\n" ++ closed lines) = occurrences pattern (closed lines) :=
      occurrences_append_of_not_mem hpattern (by simpa using Ne.symm h.1) _
    rw [closed_cons, String.append_assoc, occurrences_append hpattern hend h.2, hnext, ih,
      List.map_cons, List.sum_cons]

/-! ## Elements -/

namespace Xml

/-- The elements of a diagram. -/
inductive Tag where
  | svg
  | line
  | g
  | circle
  | text
deriving DecidableEq

/-- The name of an element. -/
def Tag.name : Tag → String
  | .svg => "svg"
  | .line => "line"
  | .g => "g"
  | .circle => "circle"
  | .text => "text"

/-- What an element starts with. -/
def Tag.start (tag : Tag) : String := "<" ++ tag.name

/-- The start of an element with its attributes. -/
def openTag (tag : Tag) (attributes : List (String × String)) : String :=
  tag.start ++ String.join (attributes.map fun (key, value) => " " ++ key ++ "=\"" ++ value ++ "\"")

/-- An element without content. -/
def emptyElement (tag : Tag) (attributes : List (String × String)) : String :=
  openTag tag attributes ++ "/>"

/-- An element with content. -/
def element (tag : Tag) (attributes : List (String × String)) (content : String) : String :=
  openTag tag attributes ++ ">" ++ content ++ "</" ++ tag.name ++ ">"

/-- There is no tag in the text. -/
def Inert (text : String) : Prop := '<' ∉ text.toList

instance (text : String) : Decidable (Inert text) := inferInstanceAs (Decidable (_ ∉ _))

theorem inert_append {text more : String} : Inert (text ++ more) ↔ Inert text ∧ Inert more := by
  simp [Inert, not_or]

theorem inert_join {texts : List String} (h : ∀ text ∈ texts, Inert text) :
    Inert (String.join texts) := by
  induction texts with
  | nil => simp [Inert]
  | cons text texts ih =>
    rw [List.forall_mem_cons] at h
    rw [String.join_cons, inert_append]
    exact ⟨h.1, ih h.2⟩

theorem inert_encode (text : String) : Inert (encode text) := by
  rw [Inert, encode, String.toList_ofList]
  exact special_not_mem_encodeChars (by simp) _

theorem Tag.toList_start (tag : Tag) : tag.start.toList = '<' :: tag.name.toList := by
  simp [start]

theorem occurrences_inert_append (tag : Tag) {text : String} (h : Inert text) (more : String) :
    occurrences tag.start (text ++ more) = occurrences tag.start more :=
  occurrences_append_of_not_mem tag.toList_start h more

theorem occurrences_inert (tag : Tag) {text : String} (h : Inert text) :
    occurrences tag.start text = 0 := by
  have happend := occurrences_inert_append tag h ""
  rw [String.append_empty] at happend
  rw [happend, occurrences, tag.toList_start]
  simp

/-- A text is cut before a character that is not a letter. -/
theorem occurrences_start_append (tag : Tag) (text : String) {more : String} {d : Char}
    {cs : List Char} (hmore : more.toList = d :: cs) (h : d.isAlpha = false) :
    occurrences tag.start (text ++ more) =
      occurrences tag.start text + occurrences tag.start more := by
  refine occurrences_append tag.toList_start hmore fun hmem => ?_
  have halpha : ∀ c ∈ tag.name.toList, c.isAlpha = true := by
    cases tag <;> simp [Tag.name]
  rw [halpha d hmem] at h
  cases h

/-- An element's tag is found at its start and in no attribute. -/
theorem occurrences_openTag (tag tag' : Tag) {attributes : List (String × String)}
    (h : ∀ a ∈ attributes, Inert a.1 ∧ Inert a.2) :
    occurrences tag.start (openTag tag' attributes) = if tag = tag' then 1 else 0 := by
  have hstart : occurrences tag.start tag'.start = if tag = tag' then 1 else 0 := by
    cases tag <;> cases tag' <;> decide
  cases attributes with
  | nil => simpa [openTag] using hstart
  | cons first attributes =>
    have hinert : Inert (String.join ((first :: attributes).map fun (key, value) =>
        " " ++ key ++ "=\"" ++ value ++ "\"")) := by
      refine inert_join fun text htext => ?_
      obtain ⟨a, hmem, rfl⟩ := List.mem_map.1 htext
      obtain ⟨hkey, hvalue⟩ := h a hmem
      simp only [inert_append]
      exact ⟨⟨⟨⟨by decide, hkey⟩, by decide⟩, hvalue⟩, by decide⟩
    obtain ⟨cs, hcs⟩ : ∃ cs, (String.join ((first :: attributes).map fun (key, value) =>
        " " ++ key ++ "=\"" ++ value ++ "\"")).toList = ' ' :: cs := by
      simp
    rw [openTag, occurrences_start_append tag _ hcs (by decide), hstart,
      occurrences_inert tag hinert, Nat.add_zero]

section

variable (tag tag' : Tag) {attributes : List (String × String)}
  (h : ∀ a ∈ attributes, Inert a.1 ∧ Inert a.2)
include h

theorem occurrences_emptyElement :
    occurrences tag.start (emptyElement tag' attributes) = if tag = tag' then 1 else 0 := by
  have hend : "/>".toList = ['/', '>'] := by decide
  rw [emptyElement, occurrences_start_append tag _ hend (by decide), occurrences_openTag tag tag' h,
    occurrences_inert tag (by decide), Nat.add_zero]

/-- In an element its tag is found once more than in its content, and other tags as often. -/
theorem occurrences_element (content : String) :
    occurrences tag.start (element tag' attributes content) =
      (if tag = tag' then 1 else 0) + occurrences tag.start content := by
  have hclose : occurrences tag.start ("</" ++ (tag'.name ++ ">")) = 0 := by
    cases tag <;> cases tag' <;> decide
  obtain ⟨cs, hcs⟩ : ∃ cs, ("</" ++ (tag'.name ++ ">")).toList = '<' :: cs := by simp
  obtain ⟨ds, hds⟩ : ∃ ds,
      (">" ++ (content ++ ("</" ++ (tag'.name ++ ">")))).toList = '>' :: ds := by
    simp
  simp only [element, String.append_assoc]
  rw [occurrences_start_append tag _ hds (by decide), occurrences_openTag tag tag' h,
    occurrences_inert_append tag (by decide), occurrences_start_append tag _ hcs (by decide),
    hclose, Nat.add_zero]

end

end Xml

end Calculator.Text
