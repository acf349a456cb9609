import Viewlet.Node
import Viewlet.Decimal.Positional

/-!
The text of a node: compact, with every operation in parentheses.
-/

namespace Viewlet

/-- Text in parentheses if it starts with a minus, behind which another minus would begin
a comment. -/
def guardMinus (text : String) : String :=
  if text.toList.head? = some '-' then "(" ++ text ++ ")" else text

/-- The text of an operation on two texts. -/
def BinOp.join (op : BinOp) (left right : String) : String :=
  "(" ++ left ++ op.symbol ++ right ++ ")"

/-- Words behind a text, each after a space. -/
def spaced (first : String) (words : List String) : String :=
  words.foldl (fun text word => text ++ " " ++ word) first

/-- The text of a chain of conditions, given the texts of its parts. Without a branch for
the case that no condition holds, the placeholder's name stands there. -/
def renderChain : (conditions branches : List String) → String
  | condition :: conditions, branch :: branches =>
      "if " ++ condition ++ " then " ++ branch ++ " else " ++ renderChain conditions branches
  | [], branch :: _ => branch
  | _, [] => "NOVALUE"

/-- The text of a constructor and its fields. -/
def Constructor.render (constructor : Constructor) : String :=
  spaced constructor.name constructor.fields

/-- Texts after a space each, with bars between them. -/
def renderAlternatives : List String → String
  | [] => ""
  | first :: rest =>
      rest.foldl (fun text alternative => text ++ " | " ++ alternative) (" " ++ first)

namespace Node

mutual

/-- The text of a node. -/
def render : Node → String
  | .integer value => value.toInt.repr
  | .float value => Decimal.ofFloat value
  | .boolean true => "True"
  | .boolean false => "False"
  | .noValue => "NOVALUE"
  | .binary op left right => op.join left.render (guardMinus right.render)
  | .negation operand => "(not " ++ operand.render ++ ")"
  | .ifElse conditions branches => renderChain (renderAll conditions) (renderAll branches)
  | .var name => name
  | .function parameter body => "(\\" ++ parameter ++ " -> " ++ body.render ++ ")"
  | .apply callee argument => "(" ++ callee.render ++ " " ++ argument.render ++ ")"
  | .declaration name body => name ++ " = " ++ body.render
  | .typeName name => name
  | .typeDefinition name parameters constructors =>
      spaced ("type " ++ name) parameters ++ " =" ++
        renderAlternatives (constructors.map Constructor.render)
  | .construction constructor arguments =>
      "(" ++ spaced constructor (renderAll arguments) ++ ")"

/-- The texts of nodes. -/
def renderAll : List Node → List String
  | [] => []
  | node :: nodes => node.render :: renderAll nodes

end

end Node

end Viewlet
