import Mathlib
import Calculator.Text.Xml

/-!
# Entities

A text with its special characters written as entities has none of these characters but the `&` that
each entity starts with, and one pass that puts the characters back gives the text again
(`Text.Xml.encode_faithful`). Where an entity ends the pass goes on with what stands for the next
character, since entities and other characters are told apart by their first character alone.
-/

namespace Calculator.Text.Xml

/-- The entities, each without its `&`, and the characters they stand for. -/
def entities : List (List Char × Char) :=
  [("amp;".toList, '&'), ("lt;".toList, '<'), ("gt;".toList, '>'), ("quot;".toList, '"'),
    ("apos;".toList, '\x27')]

/-- The characters with each entity replaced by its character, in one pass from the left. -/
def decodeChars : List Char → List Char
  | '&' :: 'a' :: 'm' :: 'p' :: ';' :: cs => '&' :: decodeChars cs
  | '&' :: 'l' :: 't' :: ';' :: cs => '<' :: decodeChars cs
  | '&' :: 'g' :: 't' :: ';' :: cs => '>' :: decodeChars cs
  | '&' :: 'q' :: 'u' :: 'o' :: 't' :: ';' :: cs => '"' :: decodeChars cs
  | '&' :: 'a' :: 'p' :: 'o' :: 's' :: ';' :: cs => '\x27' :: decodeChars cs
  | c :: cs => c :: decodeChars cs
  | [] => []

/-- A text with each entity replaced by its character. -/
def decode (text : String) : String := String.ofList (decodeChars text.toList)

/-! ## One character -/

/-- A character is written as its entity, or as it is if there is none. -/
theorem encodeChar_cases (c : Char) :
    (∃ name, (name, c) ∈ entities ∧ encodeChar c = '&' :: name) ∨
      c ∉ ['&', '<', '>', '"', '\x27'] ∧ encodeChar c = [c] := by
  unfold encodeChar
  split
  · exact .inl ⟨"amp;".toList, by decide, rfl⟩
  · exact .inl ⟨"lt;".toList, by decide, rfl⟩
  · exact .inl ⟨"gt;".toList, by decide, rfl⟩
  · exact .inl ⟨"quot;".toList, by decide, rfl⟩
  · exact .inl ⟨"apos;".toList, by decide, rfl⟩
  · rename_i hamp hlt hgt hquot hapos
    refine .inr ⟨?_, rfl⟩
    simp only [List.mem_cons, List.not_mem_nil, or_false, not_or]
    exact ⟨hamp, hlt, hgt, hquot, hapos⟩

/-- An entity has no special character behind its `&`. -/
theorem special_not_mem_entity {name : List Char} {c : Char} (h : (name, c) ∈ entities) :
    ∀ d ∈ name, d ∉ ['&', '<', '>', '"', '\x27'] := by
  have hall : ∀ entity ∈ entities, ∀ d ∈ entity.1, d ∉ ['&', '<', '>', '"', '\x27'] := by
    simp [entities]
  exact hall _ h

theorem decodeChars_entity {name : List Char} {c : Char} (h : (name, c) ∈ entities)
    (cs : List Char) : decodeChars ('&' :: (name ++ cs)) = c :: decodeChars cs := by
  simp only [entities, List.mem_cons, List.not_mem_nil, or_false, Prod.mk.injEq] at h
  rcases h with ⟨rfl, rfl⟩ | ⟨rfl, rfl⟩ | ⟨rfl, rfl⟩ | ⟨rfl, rfl⟩ | ⟨rfl, rfl⟩ <;> rfl

theorem decodeChars_cons_of_ne {c : Char} (h : c ≠ '&') (cs : List Char) :
    decodeChars (c :: cs) = c :: decodeChars cs := by
  rw [decodeChars]
  all_goals
    rintro _ rfl
    exact absurd rfl h

/-- What a character is written as is read as that character, whatever follows. -/
theorem decodeChars_encodeChar (c : Char) (cs : List Char) :
    decodeChars (encodeChar c ++ cs) = c :: decodeChars cs := by
  rcases encodeChar_cases c with ⟨name, hname, hencode⟩ | ⟨hplain, hencode⟩
  · rw [hencode]
    exact decodeChars_entity hname cs
  · rw [hencode]
    exact decodeChars_cons_of_ne (fun heq => hplain (by simp [heq])) cs

/-! ## Texts -/

theorem decodeChars_encodeChars (cs : List Char) : decodeChars (encodeChars cs) = cs := by
  induction cs with
  | nil => rfl
  | cons c cs ih =>
    unfold encodeChars at *
    rw [List.flatMap_cons, decodeChars_encodeChar, ih]

theorem decode_encode (text : String) : decode (encode text) = text := by
  rw [decode, encode, String.toList_ofList, decodeChars_encodeChars, String.ofList_toList]

/-- No special character but `&` is left. -/
theorem special_not_mem_encodeChars {c : Char} (h : c ∈ ['<', '>', '"', '\x27'])
    (cs : List Char) : c ∉ encodeChars cs := by
  intro hmem
  obtain ⟨d, -, hd⟩ := List.mem_flatMap.1 hmem
  rcases encodeChar_cases d with ⟨name, hname, hencode⟩ | ⟨hplain, hencode⟩
  · rw [hencode, List.mem_cons] at hd
    rcases hd with rfl | hd
    · exact absurd h (by decide)
    · exact special_not_mem_entity hname c hd (List.mem_cons_of_mem _ h)
  · rw [hencode, List.mem_singleton] at hd
    subst hd
    exact hplain (List.mem_cons_of_mem _ h)

/-- Behind each `&` that is written stands the rest of an entity. -/
theorem entity_of_suffix {after cs : List Char} (h : '&' :: after <:+ encodeChars cs) :
    ∃ entity ∈ entities, entity.1 <+: after := by
  induction cs with
  | nil => simp [encodeChars] at h
  | cons c cs ih =>
    obtain ⟨before, hsplit⟩ := h
    have hcons : encodeChars (c :: cs) = encodeChar c ++ encodeChars cs := List.flatMap_cons
    rw [hcons, List.append_eq_append_iff] at hsplit
    rcases hsplit with ⟨rest, hrest, hafter⟩ | ⟨rest, -, hrest⟩
    · -- The `&` stands in what `c` is written as, or right behind it.
      rcases rest with _ | ⟨d, rest⟩
      · exact ih ⟨[], hafter⟩
      · obtain ⟨rfl, rfl⟩ := List.cons_eq_cons.1 hafter
        rcases encodeChar_cases c with ⟨name, hname, hencode⟩ | ⟨hplain, hencode⟩
        · rw [hencode] at hrest
          rcases before with _ | ⟨e, before⟩
          · obtain ⟨-, rfl⟩ := List.cons_eq_cons.1 hrest
            exact ⟨(name, c), hname, List.prefix_append ..⟩
          · obtain ⟨-, rfl⟩ := List.cons_eq_cons.1 hrest
            exact absurd (special_not_mem_entity hname '&' (by simp)) (by decide)
        · have hmem : '&' ∈ encodeChar c := by simp [hrest]
          rw [hencode, List.mem_singleton] at hmem
          exact absurd (by simp [← hmem]) hplain
    · exact ih ⟨rest, hrest.symm⟩

/-- A text that is written with entities has no special character but `&`, and each `&` starts an
entity. Replacing the entities by their characters in one pass gives the text again, so that no two
texts are written alike, and a text is written piece by piece. -/
theorem encode_faithful :
    (∀ text : String, ∀ c ∈ ['<', '>', '"', '\x27'], c ∉ (encode text).toList) ∧
    (∀ (text : String) (before after : List Char),
      (encode text).toList = before ++ '&' :: after → ∃ entity ∈ entities, entity.1 <+: after) ∧
    (∀ text : String, decode (encode text) = text) ∧
    Function.Injective encode ∧
    ∀ text more : String, encode (text ++ more) = encode text ++ encode more := by
  refine ⟨fun text c hc => ?_, fun text before after h => ?_, decode_encode,
    Function.LeftInverse.injective decode_encode, fun text more => ?_⟩
  · rw [encode, String.toList_ofList]
    exact special_not_mem_encodeChars hc _
  · rw [encode, String.toList_ofList] at h
    exact entity_of_suffix ⟨before, h.symm⟩
  · rw [encode, String.toList_append, encodeChars_append, String.ofList_append, encode, encode]

/-- A text that looks like an entity and a tag, next to one that looks like it written. -/
theorem encode_faithful_nested :
    encode "&lt;<" = "&amp;lt;&lt;" ∧ encode "&amp;lt;&lt;" = "&amp;amp;lt;&amp;lt;" ∧
    (encode "&lt;<").toList = "&amp;lt;".toList ++ '&' :: "lt;".toList ∧
    (∃ entity ∈ entities, entity.1 <+: "lt;".toList) ∧
    ('<' ∈ ['<', '>', '"', '\x27'] ∧ '<' ∉ (encode "&lt;<").toList) := by
  have hsplit : (encode "&lt;<").toList = "&amp;lt;".toList ++ '&' :: "lt;".toList := by decide
  obtain ⟨hinert, hentity, -⟩ := encode_faithful
  exact ⟨by decide, by decide, hsplit, hentity _ _ _ hsplit, by simp, hinert _ _ (by simp)⟩

end Calculator.Text.Xml
