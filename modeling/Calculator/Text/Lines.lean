/-! # Lines

A text is cut after each line end; what follows the last one is a line too, unless it is empty.
A line end is a line feed or a carriage return with a line feed. Cutting bytes at the line feed
and cutting characters there are one function, `cutAfter`.
-/

namespace Calculator.Text

/-- The pieces of a list, each but the last ending in the only element of it that `stop` holds
of. No piece is empty, and together they are the list. -/
def cutAfter {α : Type} (stop : α → Bool) : List α → List (List α)
  | [] => []
  | x :: rest =>
    if stop x then [x] :: cutAfter stop rest
    else
      match cutAfter stop rest with
      | [] => [[x]]
      | piece :: pieces => (x :: piece) :: pieces

/-- Whether a character is the line feed. -/
def isLineFeed (c : Char) : Bool := c == '\n'

/-- A line without its line end: a line feed and a carriage return before it. -/
def dropLineEnd (line : List Char) : List Char :=
  match line.reverse with
  | '\n' :: '\r' :: rest => rest.reverse
  | '\n' :: rest => rest.reverse
  | _ => line

/-- The lines of a text, without their ends. -/
def lines (text : String) : List String :=
  (cutAfter isLineFeed text.toList).map fun line => String.ofList (dropLineEnd line)

/-! ## Cutting -/

section Cut

variable {α : Type} (stop : α → Bool)

/-- The pieces together are the list. -/
theorem flatten_cutAfter (xs : List α) : (cutAfter stop xs).flatten = xs := by
  induction xs with
  | nil => rfl
  | cons x rest ih =>
    rw [cutAfter]
    split
    · rw [List.flatten_cons, ih]
      rfl
    · split
      · rename_i heq
        rw [heq] at ih
        rw [← ih]
        rfl
      · rename_i piece pieces heq
        rw [heq] at ih
        rw [← ih]
        rfl

/-- A list is cut after an element that `stop` holds of, and what follows is cut on its own. -/
theorem cutAfter_append {x : α} (hx : stop x = true) (before after : List α) :
    cutAfter stop (before ++ x :: after) =
      cutAfter stop (before ++ [x]) ++ cutAfter stop after := by
  induction before with
  | nil => simp [cutAfter, hx]
  | cons y before ih =>
    rw [List.cons_append, List.cons_append, cutAfter, cutAfter, ih]
    split
    · rfl
    · obtain ⟨piece, pieces, h⟩ : ∃ piece pieces, cutAfter stop (before ++ [x]) = piece :: pieces := by
        cases h : cutAfter stop (before ++ [x]) with
        | nil =>
          have := flatten_cutAfter stop (before ++ [x])
          simp [h] at this
        | cons piece pieces => exact ⟨piece, pieces, rfl⟩
      rw [h]
      rfl

end Cut

end Calculator.Text
