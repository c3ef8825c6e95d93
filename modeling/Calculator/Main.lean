import Calculator.Command

/-! # The program

Carries out the command on the command line. What is answered is decided by `Calculator.Command`
and `Calculator.Session`; here bytes are read and written.
-/

namespace Calculator

/-- Writes an answer and gives its exit status. -/
def Response.emit (response : Response) : IO UInt32 := do
  (← IO.getStdout).putStr response.output
  (← IO.getStderr).putStr response.errors
  return response.status.toUInt32

/-- Reads a file, with the reasons for failure that commands know. -/
def readFile (path : String) : IO (Except FileError (List UInt8)) := do
  try
    return .ok (← IO.FS.readBinFile path).toList
  catch
    | .noFileOrDirectory .. => return .error .notFound
    | .inappropriateType .. => return .error .isDirectory
    | error => return .error (.other (toString error))

/-- The standard input and output. -/
def standardConsole : IO (Session.Console IO) := do
  let input ← IO.getStdin
  let output ← IO.getStdout
  return {
    readByte := do return (← input.read 1)[0]?
    say := fun text => do
      output.putStr text
      output.flush }

/-- A session on the standard input and output. -/
def runShell (config : Session.Config) : IO UInt32 := do
  let console ← standardConsole
  let _ ← console.rounds config {}
  return 0

/-- Carries out a command line. -/
def perform (args : List String) : IO UInt32 := do
  match Command.parse (← IO.getEnv "EXPTREE_PROMPT") args with
  | .error misuse => misuse.response.emit
  | .ok (.shell config) =>
    try runShell config
    catch error => (Response.failure (toString error)).emit
  | .ok (.batch path) =>
    let file ← readFile path
    ((Command.batch path).respond [] fun _ => file).emit
  | .ok command => (command.respond [] fun _ => .error .notFound).emit

end Calculator

def main (args : List String) : IO UInt32 :=
  Calculator.perform args
