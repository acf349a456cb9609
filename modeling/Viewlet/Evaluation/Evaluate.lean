import Viewlet.Evaluation.Operation
import Viewlet.Evaluation.Scope

/-!
Evaluation. A node is simplified as far as the names around it are resolved; what depends
on an unresolved name comes back as an expression, marked as incomplete. Declarations are
entered into a table, where they stay also if something around them fails. Evaluation need
not end, so it is given a bound on how deep it may recurse.
-/

namespace Viewlet

/-- The declared names with their values, each name once and the latest first. -/
abbrev Table : Type := List (String × Node)

/-- Enters a name with its value. A name that the evaluation of the value itself has entered
gets the new value. -/
def Table.declare (table : Table) (name : String) (value : Node) : Table :=
  (name, value) :: table.filter fun entry => entry.1 != name

/-- A simplified node, and whether it is a value. -/
structure Evaluated where
  node : Node
  complete : Bool

/-- An evaluation: works on a table, and gives a result or an error, or nothing if it was
not given enough depth. -/
abbrev Eval (α : Type) : Type := ExceptT EvalError (StateT Table Option) α

namespace Eval

/-- The evaluation that was not given enough depth. -/
def exhausted {α : Type} : Eval α :=
  ExceptT.mk fun _ => none

/-- What a name is declared as. -/
def declared? (name : String) : Eval (Option Node) :=
  return (← get).lookup name

/-- A variable has the value it is bound to, or else the one it is declared with. -/
def variableValue (scope : Scope) (name : String) : Eval Evaluated := do
  match (scope.get? name).or (← declared? name) with
  | none => throw (.unknownIdentifier name)
  | some .noValue => return ⟨.var name, false⟩
  | some value => return ⟨value, true⟩

/-- A declaration sees the declared names and its own. It is entered only if its body is a
value. -/
def declaration (evaluate : Scope → Node → Eval Evaluated) (name : String) (body : Node) :
    Eval Evaluated := do
  if (← declared? name).isSome then throw (.alreadyDeclared name)
  let result ← evaluate (Scope.bindUnresolved [] name) body
  if result.complete then
    modify fun table => table.declare name result.node
    return ⟨.declaration name result.node, true⟩
  else throw (.unresolvedDeclaration name result.node)

/-- A negation. -/
def negation (evaluate : Scope → Node → Eval Evaluated) (scope : Scope) (operand : Node) :
    Eval Evaluated := do
  let result ← evaluate scope operand
  if result.complete then
    match result.node with
    | .boolean value => return ⟨.boolean (!value), true⟩
    | other => throw (.unsupportedNegation other)
  else return ⟨.negation result.node, false⟩

/-- An operation on two operands, both of which are evaluated. -/
def binary (evaluate : Scope → Node → Eval Evaluated) (scope : Scope) (op : BinOp)
    (left right : Node) : Eval Evaluated := do
  let first ← evaluate scope left
  let second ← evaluate scope right
  if first.complete && second.complete then
    match op.operate first.node second.node with
    | .ok value => return ⟨value, true⟩
    | .error error => throw error
  else return ⟨.binary op first.node second.node, false⟩

/-- A function is a value whether or not its body is. -/
def function (evaluate : Scope → Node → Eval Evaluated) (scope : Scope) (parameter : String)
    (body : Node) : Eval Evaluated := do
  let result ← evaluate (scope.bindUnresolved parameter) body
  return ⟨.function parameter result.node, true⟩

/-- An operand of an application that is not carried out: the name of a declared function
stays a name, so that its body is not evaluated again where it stands. -/
def operand (scope : Scope) (source result : Node) : Eval Node := do
  match source with
  | .var name =>
      match scope.get? name, ← declared? name with
      | none, some (.function _ _) => return source
      | _, _ => return result
  | _ => return result

/-- An application that is not carried out. -/
def suspended (scope : Scope) (callee argument calleeResult argumentResult : Node) :
    Eval Evaluated := do
  let first ← operand scope callee calleeResult
  let second ← operand scope argument argumentResult
  return ⟨.apply first second, false⟩

/-- An application. The body of the function sees the declared names and its parameter
only. As long as the application mentions an unresolved name it is not carried out. -/
def application (evaluate : Scope → Node → Eval Evaluated) (scope : Scope)
    (callee argument : Node) : Eval Evaluated := do
  let first ← evaluate scope callee
  let second ← evaluate scope argument
  if first.complete then
    match first.node with
    | .function parameter body =>
        if second.complete && !callee.mentionsUnresolved scope &&
            !argument.mentionsUnresolved scope then
          evaluate (Scope.bind [] parameter second.node) body
        else suspended scope callee argument (.function parameter body) second.node
    | other =>
        match callee with
        | .apply .. => throw (.tooManyArguments other)
        | _ => throw (.notAFunction other)
  else suspended scope callee argument first.node second.node

/-- The arms of a chain of conditions. Each condition is evaluated together with its
branch, and the first that holds selects its branch. If one of them is incomplete, so is
the whole chain, which then comes back with the known names replaced. -/
def arms (evaluate : Scope → Node → Eval Evaluated) (scope : Scope) (chain : Node)
    (otherwise : Eval Evaluated) : List (Node × Node) → Eval Evaluated
  | [] => otherwise
  | (condition, branch) :: rest => do
      let test ← evaluate scope condition
      let value ← evaluate scope branch
      if test.complete && value.complete then
        match test.node with
        | .boolean true => return value
        | .boolean false => arms evaluate scope chain otherwise rest
        | other => throw (.conditionNotBool other)
      else return ⟨chain.substitute scope, false⟩

/-- A chain of conditions. The last branch is evaluated only if no condition holds. -/
def conditional (evaluate : Scope → Node → Eval Evaluated) (scope : Scope)
    (conditions branches : List Node) : Eval Evaluated :=
  let chain := Node.ifElse conditions branches
  let otherwise : Eval Evaluated := do
    match branches[conditions.length]? with
    | none => throw (.noValueFor chain)
    | some branch =>
        let value ← evaluate scope branch
        if value.complete then return value else return ⟨chain.substitute scope, false⟩
  arms evaluate scope chain otherwise (conditions.zip branches)

/-- Evaluates a node, given the evaluation of other nodes. -/
def step (evaluate : Scope → Node → Eval Evaluated) (scope : Scope) (node : Node) :
    Eval Evaluated :=
  match node with
  | .integer _ | .float _ | .boolean _ => return ⟨node, true⟩
  | .negation operand => negation evaluate scope operand
  | .binary op left right => binary evaluate scope op left right
  | .var name => variableValue scope name
  | .declaration name body => declaration evaluate name body
  | .function parameter body => function evaluate scope parameter body
  | .apply callee argument => application evaluate scope callee argument
  | .ifElse conditions branches => conditional evaluate scope conditions branches
  | .noValue | .typeName _ | .typeDefinition .. | .construction .. => throw (.noValueFor node)

end Eval

/-- Evaluates a node in a scope, recursing at most `depth` deep. -/
def evaluate : (depth : Nat) → Scope → Node → Eval Evaluated
  | 0 => fun _ _ => Eval.exhausted
  | depth + 1 => Eval.step (evaluate depth)

end Viewlet
