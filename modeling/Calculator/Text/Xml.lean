/-! # Text inside XML

The five characters that XML gives a meaning are written as entities, all others as they are.
-/

namespace Calculator.Text.Xml

/-- How a character is written inside an XML text. -/
def encodeChar (c : Char) : List Char :=
  match c with
  | '&' => "&amp;".toList
  | '<' => "&lt;".toList
  | '>' => "&gt;".toList
  | '"' => "&quot;".toList
  | '\x27' => "&apos;".toList
  | c => [c]

/-- The characters with the special ones written as entities. -/
def encodeChars (cs : List Char) : List Char := cs.flatMap encodeChar

/-- A text with the special characters written as entities. -/
def encode (text : String) : String := String.ofList (encodeChars text.toList)

theorem encodeChars_append (xs ys : List Char) :
    encodeChars (xs ++ ys) = encodeChars xs ++ encodeChars ys :=
  List.flatMap_append

end Calculator.Text.Xml
