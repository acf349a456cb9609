import Viewlet.Evaluation.Evaluate
import Viewlet.Listing
import Viewlet.Reading.Unit

/-!
Sessions. A session keeps the declarations made in it; a declared name cannot be declared
again until the session is reset. One declaration is the root, whose value is that of a
program.
-/

namespace Viewlet

/-- Why a session refuses a text. -/
inductive SessionError where
  | lexical (error : LexError)
  | structural (error : SyntaxError)
  | evaluation (error : EvalError)

namespace SessionError

/-- The cause in words. -/
def message : SessionError → String
  | .lexical error => error.message
  | .structural error => error.message false
  | .evaluation error => "Evaluation error: " ++ error.message

/-- The message of the error behind this one, if there is one. -/
def cause? : SessionError → Option String
  | .lexical _ => none
  | .structural error => some (error.message false)
  | .evaluation error => some error.message

end SessionError

/-- The root of a program that names no other. -/
def Session.defaultRoot : String := "view"

/-- The declarations of a session and the name of its root. -/
structure Session where
  root : String := Session.defaultRoot
  table : Table := []

namespace Session

/-- What a name is declared as. -/
def get? (session : Session) (name : String) : Option Node :=
  session.table.lookup name

/-- The declarations in the order of their names. -/
def listing (session : Session) : List (String × Node) :=
  sortByName session.table

/-- Forgets every declaration. -/
def reset (session : Session) : Session :=
  { session with table := [] }

/-- Evaluates a node in a scope. Without enough depth there is no result. -/
def evaluate (depth : Nat) (session : Session) (scope : Scope) (node : Node) :
    Option (Except EvalError Evaluated × Session) := do
  let (result, table) ← (Viewlet.evaluate depth scope node).run.run session.table
  return (result, { session with table := table })

/-- The only unit of a text. -/
def readSingle (source : String) : Except SessionError Node :=
  match TokenStream.ofSource source with
  | .error error => .error (.lexical error)
  | .ok stream =>
      match (Reader.ofStream stream).readUnit Parse.item with
      | (.error error, _) => .error (.structural error)
      | (.ok node, reader) =>
          if reader.isDone then .ok node else .error (.structural { reason := .severalUnits })

/-- Evaluates a text of one unit. -/
def interpret (depth : Nat) (session : Session) (source : String) :
    Option (Except SessionError Node × Session) :=
  match readSingle source with
  | .error error => some (.error error, session)
  | .ok node => do
      let (result, session) ← session.evaluate depth [] node
      match result with
      | .ok value => return (.ok value.node, session)
      | .error error => return (.error (.evaluation error), session)

/-- Evaluates what units were read as, up to the first that was not read or fails. -/
def declareAll (depth : Nat) (session : Session) :
    List (Except SyntaxError Node) → Option (Except SessionError Unit × Session)
  | [] => some (.ok (), session)
  | .error error :: _ => some (.error (.structural error), session)
  | .ok node :: rest => do
      let (result, session) ← session.evaluate depth [] node
      match result with
      | .ok _ => declareAll depth session rest
      | .error error => return (.error (.evaluation error), session)

/-- The value of the root. -/
def rootValue (depth : Nat) (session : Session) : Option (Except SessionError Node × Session) :=
  match session.get? session.root with
  | none => some (.error (.evaluation (.missingRoot session.root)), session)
  | some root => do
      let (result, session) ← session.evaluate depth [] root
      match result with
      | .ok value => return (.ok value.node, session)
      | .error error => return (.error (.evaluation error), session)

/-- Evaluates a text whose units are declarations, and then its root. -/
def compile (depth : Nat) (session : Session) (source : String) :
    Option (Except SessionError Node × Session) :=
  match TokenStream.ofSource source with
  | .error error => some (.error (.lexical error), session)
  | .ok stream => do
      let declarations := ((Reader.ofStream stream).readAll Parse.declaration).1
      let (result, session) ← session.declareAll depth declarations
      match result with
      | .ok () => session.rootValue depth
      | .error error => return (.error error, session)

end Session

end Viewlet
