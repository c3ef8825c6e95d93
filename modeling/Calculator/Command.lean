import Calculator.Batch
import Calculator.Session

/-! # Commands

What the program can be told to do on its command line (`Command.parse`), and what it answers
(`Command.respond`): a text on each of the two outputs and an exit status, 0 for success and 1 for
failure.
-/

namespace Calculator

/-- What the program answers: the two outputs and the exit status. -/
structure Response where
  status : UInt8 := 0
  output : String := ""
  errors : String := ""
deriving DecidableEq

namespace Response

/-- Failure with a message. -/
def failure (message : String) : Response :=
  { status := 1, errors := "error: " ++ message ++ "\n" }

end Response

/-- Why a file could not be read. -/
inductive FileError where
  | notFound
  | isDirectory
  | other (description : String)
deriving DecidableEq

/-- The system's words for why a file could not be read. -/
def FileError.message : FileError → String
  | .notFound => "No such file or directory (os error 2)"
  | .isDirectory => "Is a directory (os error 21)"
  | .other description => description

/-- Something to do. -/
inductive Command where
  /-- Runs a session on the standard input. -/
  | shell (config : Session.Config)
  /-- Shows the value of an expression. -/
  | eval (expression : String)
  /-- Shows the tokens of an expression, one a line. -/
  | lex (expression : String)
  /-- Shows the postfix order of an expression. -/
  | postfixOrder (expression : String)
  /-- Draws the tree of an expression, as text or as an SVG document. -/
  | tree (expression : String) (svg : Bool)
  /-- Evaluates the lines of a file. -/
  | batch (path : String)
  | help
  | version

/-- Why a command line is refused. -/
inductive Misuse where
  /-- A command that needs an expression has none. -/
  | noExpression (command : String)
  | noTreeExpression
  | noBatchFile
  | unknownFlag (flag : String)
  | unknownCommand (command : String)
deriving DecidableEq

namespace Command

/-- What the program can do, and how: the lines of the help. -/
def usageLines : List String := [
  "exptree - arithmetic expression evaluator",
  "",
  "Usage: exptree [command] [options]",
  "",
  "Commands:",
  "  (none)               Start the interactive shell",
  "  eval <expr>          Evaluate one expression",
  "  lex <expr>           Show the token stream",
  "  postfix <expr>       Show the postfix (RPN) order",
  "  tree <expr>          Draw the expression tree",
  "  batch <file>         Evaluate every line of a file in parallel",
  "  help                 Show this help message",
  "  version              Show version information",
  "",
  "Shell options:",
  "  --verbose, -v        Echo tokens, postfix order and tree for each line",
  "  --tree               Draw the tree for each line",
  "  --svg                Print an SVG diagram for each line",
  "",
  "Tree options:",
  "  --svg                Emit SVG instead of text",
  "",
  "Shell input ends at 'quit', ':q' or end of input.",
  "Set EXPTREE_PROMPT to change the prompt, RUST_LOG to enable tracing.",
  "",
  "Examples:",
  "  exptree eval \"(3 + 4) * 2 - 5 / (1 + 0)\"",
  "  exptree postfix \"3 + 4*2\"",
  "  exptree tree \"6/3/2\" --svg > tree.svg",
  "  exptree -v"]

/-- The help. -/
def usage : String := String.join (usageLines.map (· ++ "\n"))

/-- The program's name and version. -/
def versionLine : String := "exptree 0.1.0\n"

end Command

/-- The answer to a command line that is refused. -/
def Misuse.response : Misuse → Response
  | .noExpression command =>
    { status := 1, errors := "Usage: exptree " ++ command ++ " <expression>\n" }
  | .noTreeExpression => { status := 1, errors := "Usage: exptree tree <expression> [--svg]\n" }
  | .noBatchFile => { status := 1, errors := "Usage: exptree batch <file>\n" }
  | .unknownFlag flag =>
    { status := 1
      errors := "error: unknown flag '" ++ flag ++
        "'\nValid flags: --verbose, --tree, --svg\n" }
  | .unknownCommand command =>
    { status := 1, output := Command.usage, errors := "Unknown command: " ++ command ++ "\n\n" }

namespace Command

/-! ## Reading a command line -/

/-- The configuration with one more flag. -/
def addFlag (config : Session.Config) (flag : String) : Except Misuse Session.Config :=
  match flag with
  | "--verbose" | "-v" => .ok { config with verbose := true }
  | "--tree" => .ok { config with drawing := true }
  | "--svg" => .ok { config with svg := true }
  | _ => .error (.unknownFlag flag)

/-- A session with flags; `prompt` replaces the usual prompt. -/
def parseShell (prompt : Option String) (flags : List String) : Except Misuse Command := do
  let config : Session.Config := {}
  let config := { config with prompt := prompt.getD config.prompt }
  return .shell (← flags.foldlM addFlag config)

/-- The words of an expression, one blank between neighbours; there has to be a word. -/
def parseExpression (command : String) (words : List String) : Except Misuse String :=
  if words.isEmpty then .error (.noExpression command) else .ok (String.intercalate " " words)

/-- The command on a command line. -/
def parse (prompt : Option String) : List String → Except Misuse Command
  | [] => parseShell prompt []
  | "eval" :: words => Command.eval <$> parseExpression "eval" words
  | "lex" :: words => Command.lex <$> parseExpression "lex" words
  | "postfix" :: words => Command.postfixOrder <$> parseExpression "postfix" words
  | "tree" :: words =>
    let expression := words.filter (· != "--svg")
    if expression.isEmpty then .error .noTreeExpression
    else .ok (.tree (String.intercalate " " expression) (words.contains "--svg"))
  | ["batch"] => .error .noBatchFile
  | "batch" :: path :: _ => .ok (.batch path)
  | "help" :: _ | "--help" :: _ | "-h" :: _ => .ok .help
  | "version" :: _ | "--version" :: _ => .ok .version
  | word :: words =>
    if word.toList.head? = some '-' then parseShell prompt (word :: words)
    else .error (.unknownCommand word)

/-! ## Answers -/

/-- The answer to a request for a value. -/
def evalResponse (expression : String) : Response :=
  match evaluate expression with
  | .ok value => { output := value.text ++ "\n" }
  | .error error => .failure error.message

/-- The tokens of an expression, one a line below their number. -/
def lexResponse (expression : String) : Response :=
  let tokens := Token.tokenize expression
  { output := "Tokens for '" ++ expression ++ "' (" ++ toString tokens.length ++ " tokens):\n" ++
      String.join (tokens.map fun token => "  " ++ token.describe ++ "\n") }

/-- The postfix order of an expression. -/
def postfixResponse (expression : String) : Response :=
  { output := Token.spaced (Token.toPostfix (Token.tokenize expression)) ++ "\n" }

/-- The drawing or the diagram of an expression. -/
def treeResponse (expression : String) (svg : Bool) : Response :=
  match Tree.ofPostfix (Token.toPostfix (Token.tokenize expression)) with
  | .ok t => { output := if svg then t.svg else t.drawing }
  | .error error => .failure error.message

/-- The reports of a file's lines, and how many failed if any did. -/
def batchResponse (bytes : List UInt8) : Response :=
  let entries := Batch.ofText (Text.Utf8.decode bytes)
  let output := String.join (entries.map fun entry => entry.report ++ "\n")
  let failures := entries.countP Batch.Entry.failed
  if failures = 0 then { output }
  else
    { status := 1
      output
      errors := toString failures ++ " of " ++ toString entries.length ++ " expressions failed\n" }

/-- The answer of a session over the whole input. -/
def shellResponse (config : Session.Config) (input : List UInt8) : Response :=
  let (_, sink) := Session.run config { bytes := input } {}
  { output := Text.Utf8.decode sink.written.toList }

/-- The answer to a command, given the standard input and what reading files gives. -/
def respond (input : List UInt8) (readFile : String → Except FileError (List UInt8)) :
    Command → Response
  | .shell config => shellResponse config input
  | .eval expression => evalResponse expression
  | .lex expression => lexResponse expression
  | .postfixOrder expression => postfixResponse expression
  | .tree expression svg => treeResponse expression svg
  | .batch path =>
    match readFile path with
    | .ok bytes => batchResponse bytes
    | .error error => .failure ("cannot read '" ++ path ++ "': " ++ error.message)
  | .help => { output := usage }
  | .version => { output := versionLine }

/-- The answer to a command line. -/
def answer (prompt : Option String) (input : List UInt8)
    (readFile : String → Except FileError (List UInt8)) (args : List String) : Response :=
  match parse prompt args with
  | .ok command => command.respond input readFile
  | .error misuse => misuse.response

end Command

end Calculator
