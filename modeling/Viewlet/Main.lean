import Viewlet.Command

/-!
The command line.
-/

namespace Viewlet

/-- Why the system did not read a file. Its numbers may come negated. -/
def FileError.ofIOError (error : IO.Error) : FileError :=
  match error with
  | .noFileOrDirectory .. => .missing
  | .inappropriateType _ number _ =>
      if number = 21 ∨ number = -21 then .isDirectory else .notDirectory
  | .invalidArgument _ number _ =>
      if number = 36 ∨ number = -36 then .nameTooLong else .other error.toString
  | _ => .other error.toString

/-- Reads a file for a command. -/
def readSource (file : String) : IO (Except FileError String) := do
  try
    match String.fromUTF8? (← IO.FS.readBinFile file) with
    | some text => return .ok text
    | none => return .error .notText
  catch error => return .error (.ofIOError error)

/-- Writes the output of a command. -/
def emit (output : Output) : IO Unit := do
  IO.print output.stdout
  (← IO.getStdout).flush
  IO.eprint output.stderr

/-- Answers the input line by line until it ends. -/
partial def interact (session : Session) : IO Unit := do
  IO.print Command.ready
  (← IO.getStdout).flush
  let line ← (← IO.getStdin).getLine
  if line.isEmpty then IO.println ""
  else
    let text := ((Text.lines line.toList).map String.ofList).headD ""
    let (output, session) := Command.replLine Command.ampleDepth session text
    emit output
    interact session

end Viewlet

open Viewlet in
/-- Carries out the command that the arguments ask for. -/
def main (arguments : List String) : IO UInt32 := do
  match Command.ofArguments arguments with
  | none =>
      IO.eprintln <|
        "usage: viewlet run FILE [--root NAME] [--check] | check FILE | tokens FILE | repl"
      return 2
  | some .repl =>
      interact {}
      return 0
  | some command =>
      let source ←
        match command.file? with
        | some file => readSource file
        | none => pure (.ok "")
      let output := command.perform Command.ampleDepth (fun _ => source) ""
      emit output
      return output.code.toUInt32
