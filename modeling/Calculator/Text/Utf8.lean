/-! # Reading UTF-8

Bytes are read as characters in UTF-8. Where they are none, each longest start of a sequence that
could still have become a character, and each byte that starts none, is read as the replacement
character U+FFFD; reading goes on with the byte after it, so every list of bytes is read.
-/

namespace Calculator.Text.Utf8

/-- What stands for bytes that are no character. -/
def replacement : Char := Char.ofNat 0xFFFD

/-- The start of a character's byte sequence: its bits so far, how many bytes are owed, and the
least and the greatest byte that may come next. -/
structure Partial where
  bits : Nat
  owed : Nat
  low : Nat
  high : Nat
deriving DecidableEq

/-- What a byte is between characters: a character by itself, the first byte of a longer sequence,
or neither. -/
inductive Lead where
  | char (c : Char)
  | sequence (start : Partial)
  | invalid

/-- The role of a byte between characters. The second byte is limited where a sequence would be
longer than needed, a surrogate or beyond the last code point. -/
def lead (byte : Nat) : Lead :=
  if byte < 0x80 then .char (Char.ofNat byte)
  else if byte < 0xC2 then .invalid
  else if byte < 0xE0 then .sequence ⟨byte - 0xC0, 1, 0x80, 0xBF⟩
  else if byte = 0xE0 then .sequence ⟨0, 2, 0xA0, 0xBF⟩
  else if byte = 0xED then .sequence ⟨0xD, 2, 0x80, 0x9F⟩
  else if byte < 0xF0 then .sequence ⟨byte - 0xE0, 2, 0x80, 0xBF⟩
  else if byte = 0xF0 then .sequence ⟨0, 3, 0x90, 0xBF⟩
  else if byte < 0xF4 then .sequence ⟨byte - 0xF0, 3, 0x80, 0xBF⟩
  else if byte = 0xF4 then .sequence ⟨4, 3, 0x80, 0x8F⟩
  else .invalid

/-- The characters a byte completes between characters, and the sequence it starts. -/
def stepStart (byte : Nat) : List Char × Option Partial :=
  match lead byte with
  | .char c => ([c], none)
  | .sequence start => ([], some start)
  | .invalid => ([replacement], none)

/-- The characters a byte completes, and the sequence that is open after it. -/
def step (state : Option Partial) (byte : Nat) : List Char × Option Partial :=
  match state with
  | none => stepStart byte
  | some start =>
    if start.low ≤ byte && byte ≤ start.high then
      let bits := start.bits * 64 + (byte - 0x80)
      if start.owed ≤ 1 then ([Char.ofNat bits], none)
      else ([], some ⟨bits, start.owed - 1, 0x80, 0xBF⟩)
    else
      let (cs, next) := stepStart byte
      (replacement :: cs, next)

/-- The characters of the bytes that follow an open sequence. -/
def decodeFrom (state : Option Partial) : List UInt8 → List Char
  | [] => if state.isSome then [replacement] else []
  | byte :: rest =>
    let (cs, next) := step state byte.toNat
    cs ++ decodeFrom next rest

/-- The text of the bytes. -/
def decode (bytes : List UInt8) : String := String.ofList (decodeFrom none bytes)

end Calculator.Text.Utf8
