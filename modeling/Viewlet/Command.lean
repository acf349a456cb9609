import Viewlet.Arguments
import Viewlet.FileTree
import Viewlet.Session
import Viewlet.Typing.Infer

/-!
The commands and what they write. A command is given the files and the input it works on,
and answers with its output; nothing here reads or writes by itself.
-/

namespace Viewlet

/-- A command with its arguments. -/
inductive Command where
  /-- Evaluates a program and shows the value of its root, after checking its types if
  asked. -/
  | run (file root : String) (checked : Bool)
  /-- Shows the type of every unit of a program. -/
  | check (file : String)
  /-- Shows the tokens of a file. -/
  | tokens (file : String)
  /-- Evaluates the input line by line. -/
  | repl
  deriving DecidableEq, Repr

/-- What a command writes, and the code it ends with. -/
structure Output where
  code : Nat := 0
  stdout : String := ""
  stderr : String := ""
  deriving DecidableEq, Repr

/-- Why a command fails: a message, the cause behind it, and what was written to the error
output before. -/
structure Failure where
  message : String
  cause : Option String := none
  report : String := ""
  deriving DecidableEq, Repr

namespace Failure

private def indented (text : String) : String :=
  String.ofList (Text.join '\n' ((Text.pieces '\n' text.toList).map ("    ".toList ++ ·)))

/-- The output of a failing command. The cause follows the message, indented. -/
def output (failure : Failure) : Output :=
  let causeText :=
    match failure.cause with
    | some cause => "\n\nCaused by:\n" ++ indented cause
    | none => ""
  { code := 1
    stderr := failure.report ++ "Error: " ++ failure.message ++ causeText ++ "\n" }

end Failure

namespace Command

/-- A depth that no evaluation reaches, because it runs out of memory before. -/
def ampleDepth : Nat := Nat.pow 2 48

/-- The command that arguments ask for. -/
def ofArguments : List String → Option Command
  | [] => none
  | name :: rest => do
      let given ← Arguments.sort {} rest
      match name with
      | "run" =>
          let file ← given.file?
          return .run file (given.root.getD Session.defaultRoot) given.check
      | "check" =>
          guard given.isPlain
          return .check (← given.file?)
      | "tokens" =>
          guard given.isPlain
          return .tokens (← given.file?)
      | "repl" =>
          guard (given.isPlain ∧ given.values = [])
          return .repl
      | _ => none

/-- The file that a command reads. -/
def file? : Command → Option String
  | .run file _ _ | .check file | .tokens file => some file
  | .repl => none

private def asLines (texts : List String) : String :=
  String.join (texts.map (· ++ "\n"))

/-- The failure of an evaluation that did not end. -/
def unfinished : Failure := { message := "evaluation did not finish" }

/-- Checks the types of a program. -/
def typeCheck (source : String) : Except Failure TypeEnv :=
  match readProgram source with
  | .error error => .error { message := error.message }
  | .ok (nodes, []) =>
      match inferProgram nodes with
      | .ok env => .ok env
      | .error errors =>
          .error
            { message := errors.length.repr ++ " unit(s) failed to type-check"
              report := asLines (errors.map TypeError.message) }
  | .ok (_, errors) =>
      .error
        { message := errors.length.repr ++ " unit(s) failed to parse"
          report := asLines (errors.map (SyntaxError.message false)) }

/-- Evaluates a program. -/
def runSource (depth : Nat) (root : String) (checked : Bool) (source : String) :
    Except Failure String := do
  if checked then
    let _ ← typeCheck source
  match ({ root := root } : Session).compile depth source with
  | none => .error unfinished
  | some (.ok value, _) => .ok (value.render ++ "\n")
  | some (.error error, _) => .error { message := error.message, cause := error.cause? }

/-- Lists the types of a program. -/
def checkSource (source : String) : Except Failure String := do
  let env ← typeCheck source
  return asLines (env.listing.map fun (name, scheme) => name ++ " : " ++ scheme.ty.render)

/-- A text followed by spaces up to a width in characters. -/
def padded (width : Nat) (text : String) : String :=
  text ++ String.ofList (List.replicate (width - text.length) ' ')

/-- Lists the tokens of a text. -/
def listTokens (source : String) : Except Failure String :=
  match TokenStream.ofSource source with
  | .error error => .error { message := error.message }
  | .ok stream =>
      .ok (asLines (stream.tokens.map fun token =>
        padded 16 token.describe ++ " " ++ token.text))

/-- What is written before each line of the input. -/
def ready : String := "> "

/-- Answers one line of the input, unless it is blank. -/
def replLine (depth : Nat) (session : Session) (line : String) : Output × Session :=
  if line.toList.all Text.isWhiteSpace then ({}, session)
  else
    match session.interpret depth line with
    | none => ({ stderr := unfinished.message ++ "\n" }, session)
    | some (.ok value, session) => ({ stdout := value.render ++ "\n" }, session)
    | some (.error error, session) => ({ stderr := error.message ++ "\n" }, session)

/-- Answers lines of the input one after the other. -/
def replLines (depth : Nat) (session : Session) : List String → Output
  | [] => { stdout := ready ++ "\n" }
  | line :: rest =>
      let (first, session) := replLine depth session line
      let others := replLines depth session rest
      { stdout := ready ++ first.stdout ++ others.stdout
        stderr := first.stderr ++ others.stderr }

/-- What a command answers to the text of its file. -/
def answer (depth : Nat) (command : Command) (source : String) : Except Failure String :=
  match command with
  | .run _ root checked => runSource depth root checked source
  | .check _ => checkSource source
  | .tokens _ => listTokens source
  | .repl => .ok ""

/-- Carries out a command, given what reading a file yields and the text of the input. -/
def perform (depth : Nat) (command : Command) (contentOf : String → Except FileError String)
    (input : String) : Output :=
  match command.file? with
  | none => replLines depth {} ((Text.lines input.toList).map String.ofList)
  | some file =>
      match contentOf file with
      | .error error =>
          Failure.output
            { message := "failed to read " ++ file, cause := some error.message }
      | .ok source =>
          match command.answer depth source with
          | .ok text => { stdout := text }
          | .error failure => failure.output

end Command

end Viewlet
