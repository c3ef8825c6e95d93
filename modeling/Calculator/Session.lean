import Calculator.Binary64.Text
import Calculator.Diagram
import Calculator.Drawing
import Calculator.Evaluation
import Calculator.Text.Blank
import Calculator.Text.Lines
import Calculator.Text.Utf8

/-! # Shell sessions

A session answers lines of input one after the other. Each round shows the prompt, reads a line and
replies to it (`Session.reply`); blank lines have no reply, and `quit`, `:q` or the end of the
input end the session. Nothing is kept from one line to the next but how many had a value and how
many had none.

The rounds are the same whatever they read from and write to (`Session.Console`). `Session.run` is
the session over a `Source` and a `Sink`. These can fail: a source may break off, and a sink may
have room for a limited number of bytes. A fault ends the session, and what was written before it
stays written.
-/

namespace Calculator

namespace Session

/-- What a session shows besides results. -/
structure Config where
  verbose : Bool := false
  drawing : Bool := false
  svg : Bool := false
  prompt : String := "> "
deriving DecidableEq

/-- The lines, without blank characters around them, that end a session. -/
def quitCommands : List String := ["quit", ":q"]

/-- Whether a line ends the session. -/
def isQuit (line : String) : Bool := quitCommands.contains line

/-! ## Replies -/

/-- What a line is answered with. -/
inductive Reply where
  /-- The line is blank. -/
  | blank
  /-- The line ends the session. -/
  | quit
  /-- The line's value, and what is shown with it. -/
  | value (shown : String)
  /-- Why the line has no value. -/
  | failure (shown : String)
deriving DecidableEq

/-- What is shown for an evaluation: tokens and postfix order, the drawing and the diagram as
configured, and always the value. -/
def shown (config : Config) (e : Evaluation) : String :=
  (if config.verbose then
    "Tokens:  " ++ Token.spaced e.tokens ++ "\nPostfix: " ++ Token.spaced e.postfixTokens ++ "\n"
  else "") ++
  (if config.verbose || config.drawing then e.tree.drawing else "") ++
  (if config.svg then e.tree.svg else "") ++
  "Result: " ++ e.value.text ++ "\n"

/-- The reply to an expression. -/
def replyTo (config : Config) (expression : String) : Reply :=
  match Evaluation.ofText expression with
  | .ok e => .value (shown config e)
  | .error error => .failure ("error: " ++ error.message ++ "\n")

/-- The expression on a line of input. -/
def expressionOn (line : List UInt8) : String := Text.trim (Text.Utf8.decode line)

/-- The reply to a line of input. -/
def reply (config : Config) (line : List UInt8) : Reply :=
  let expression := expressionOn line
  if expression.isEmpty then .blank
  else if isQuit expression then .quit
  else replyTo config expression

/-! ## Input and output -/

/-- Why a session breaks off. -/
inductive Fault where
  | read
  | write
deriving DecidableEq

/-- What can be read: the bytes, and whether reading on after them fails. -/
structure Source where
  bytes : List UInt8
  breaks : Bool := false

/-- A source that delivers only the first `limit` bytes and fails then; a limit beyond the end of
the bytes is none. -/
def Source.limited (bytes : List UInt8) (limit : Option Nat) : Source :=
  match limit with
  | some n => if n ≤ bytes.length then ⟨bytes.take n, true⟩ else ⟨bytes, false⟩
  | none => ⟨bytes, false⟩

/-- The byte that ends a line. -/
def lineFeed : UInt8 := 10

/-- The lines a source delivers, with their line feeds. A source that breaks off loses a last line
that has none. -/
def Source.lines (source : Source) : List (List UInt8) :=
  let pieces := Text.cutAfter (· == lineFeed) source.bytes
  if source.breaks then pieces.filter (·.contains lineFeed) else pieces

/-- What has been written, and how many more bytes there is room for, if that is limited. -/
structure Sink where
  written : ByteArray := .empty
  room : Option Nat := none
deriving Inhabited

/-- Writes as much of the bytes as there is room for; tells whether that was all. -/
def Sink.write (sink : Sink) (bytes : ByteArray) : Bool × Sink :=
  match sink.room with
  | none => (true, { sink with written := sink.written ++ bytes })
  | some room =>
    if bytes.size ≤ room then
      (true, ⟨sink.written ++ bytes, some (room - bytes.size)⟩)
    else
      (false, ⟨sink.written ++ bytes.extract 0 room, some 0⟩)

/-! ## The rounds -/

/-- How many lines had a value and how many had none. -/
structure Summary where
  evaluated : Nat := 0
  failed : Nat := 0
deriving DecidableEq, Inhabited

/-- What a session reads from and writes to. -/
structure Console (m : Type → Type) where
  /-- Reads the next byte; at the end of the input there is none. -/
  readByte : m (Option UInt8)
  /-- Writes a text. -/
  say : String → m Unit

namespace Console

variable {m : Type → Type} [Monad m] (console : Console m)

/-- Reads one more byte of a line: on the left the line so far, on the right the whole line. -/
@[specialize]
def readOn (line : Array UInt8) : m (Array UInt8 ⊕ Array UInt8) := do
  match ← console.readByte with
  | none => return .inr line
  | some byte => return if byte == lineFeed then .inr (line.push byte) else .inl (line.push byte)

/-- Reads a line with its line feed; at the end of the input, nothing. -/
@[specialize]
def readLine : m (List UInt8) := do
  return (← repeatM console.readOn #[]).toList

/-- One round: on the left the counts that the next one starts from, on the right those that the
session ends with. -/
@[specialize]
def round (config : Config) (summary : Summary) : m (Summary ⊕ Summary) := do
  console.say config.prompt
  let line ← console.readLine
  if line.isEmpty then return .inr summary
  match reply config line with
  | .blank => return .inl summary
  | .quit => return .inr summary
  | .value shown =>
    console.say shown
    return .inl { summary with evaluated := summary.evaluated + 1 }
  | .failure shown =>
    console.say shown
    return .inl { summary with failed := summary.failed + 1 }

/-- The rounds of a session from these counts on. -/
@[specialize]
def rounds (config : Config) (summary : Summary) : m Summary :=
  repeatM (console.round config) summary

end Console

/-! ## Sessions over a source and a sink -/

/-- A computation that writes to a sink and may break off. -/
abbrev Shell := ExceptT Fault (StateM Sink)

/-- Writes a text. -/
def say (text : String) : Shell Unit := do
  let sink ← get
  let (complete, sink) := sink.write text.toUTF8
  set sink
  unless complete do throw .write

/-- A computation that also reads; its state is what there is left to read. -/
abbrev Dialogue := StateT (List UInt8) Shell

/-- Reads the bytes that are left and writes to the sink; `breaks` says whether reading on after the
bytes fails. -/
def Dialogue.console (breaks : Bool) : Console Dialogue where
  readByte := do
    match ← get with
    | [] => if breaks then throw .read else return none
    | byte :: rest =>
      set rest
      return some byte
  say text := Session.say text

/-- A session over a source and a sink: how it ended, and the sink afterwards. -/
def run (config : Config) (source : Source) (sink : Sink) : Except Fault Summary × Sink :=
  (((Dialogue.console source.breaks).rounds config {}).run' source.bytes).run.run sink

end Session

end Calculator
