import Viewlet.Node.Render

/-!
What can go wrong when a node is evaluated.
-/

namespace Viewlet

/-- Why a node has no value. -/
inductive EvalError where
  | divisionByZero
  | unknownIdentifier (name : String)
  | alreadyDeclared (name : String)
  /-- What is applied to a further argument after an application is no function. -/
  | tooManyArguments (found : Node)
  /-- What is applied is no function. -/
  | notAFunction (found : Node)
  | conditionNotBool (found : Node)
  | unsupportedNegation (operand : Node)
  | unsupportedOperation (op : BinOp) (left right : Node)
  /-- An operand is neither a truth value nor a number. -/
  | notAnOperand (op : BinOp) (left right : Node)
  /-- The node is of a kind that has no value, or a chain of conditions none of which
  holds and that has no further branch. -/
  | noValueFor (node : Node)
  | missingRoot (root : String)
  /-- The body of a declaration depends on a name without value. -/
  | unresolvedDeclaration (name : String) (body : Node)

/-- The cause in words. -/
def EvalError.message : EvalError → String
  | .divisionByZero => "division by zero"
  | .unknownIdentifier name => "unknown identifier: " ++ name
  | .alreadyDeclared name => "'" ++ name ++ "' is already declared"
  | .tooManyArguments found => "too many arguments: " ++ found.render ++ " is not a function"
  | .notAFunction found => found.render ++ " is not a function"
  | .conditionNotBool found => "condition must be a Bool, found " ++ found.render
  | .unsupportedNegation operand => "unsupported operation: not applied to " ++ operand.render
  | .unsupportedOperation op left right =>
      "unsupported operation: " ++ op.join left.render right.render
  | .notAnOperand op left right => "cannot evaluate " ++ op.join left.render right.render
  | .noValueFor node => "cannot evaluate " ++ node.render
  | .missingRoot root => "cannot evaluate a program without a '" ++ root ++ "' declaration"
  | .unresolvedDeclaration name body =>
      "declaration of '" ++ name ++ "' cannot be fully evaluated: " ++ body.render

end Viewlet
