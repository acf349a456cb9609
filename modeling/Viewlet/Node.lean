/-!
Syntax trees. One type covers everything that can stand in a program: expressions,
declarations and type definitions, and the placeholder for a value that is not known yet.
-/

namespace Viewlet

/-- The binary operators. -/
inductive BinOp where
  | add | sub | mul | div | eq | ne | lt | gt | le | ge | and | or
  deriving DecidableEq, Repr

namespace BinOp

/-- How the operator is written. -/
def symbol : BinOp → String
  | add => "+"
  | sub => "-"
  | mul => "*"
  | div => "/"
  | eq => "=="
  | ne => "/="
  | lt => "<"
  | gt => ">"
  | le => "<="
  | ge => ">="
  | and => "&&"
  | or => "||"

/-- Whether the operator compares two numbers. -/
def isComparison : BinOp → Bool
  | eq | ne | lt | gt | le | ge => true
  | _ => false

/-- Whether the operator joins two truth values. -/
def isLogical : BinOp → Bool
  | and | or => true
  | _ => false

end BinOp

mutual

/-- A syntax tree. -/
inductive Node where
  | integer (value : Int64)
  | float (value : Float)
  | boolean (value : Bool)
  /-- The placeholder for a value that is not known yet. -/
  | noValue
  | binary (op : BinOp) (left right : Node)
  | negation (operand : Node)
  /-- A chain of conditions, each with the branch of the same index, and one branch more
  for the case that none holds. -/
  | ifElse (conditions branches : List Node)
  | var (name : String)
  | function (parameter : String) (body : Node)
  | apply (callee argument : Node)
  | declaration (name : String) (body : Node)
  | typeName (name : String)
  | typeDefinition (name : String) (parameters : List String) (constructors : List Constructor)
  | construction (constructor : String) (arguments : List Node)

/-- A constructor of a defined type. Its signature takes the fields one after the other
and ends in the name of the type. -/
structure Constructor where
  name : String
  signature : Node

end

namespace Node

/-- The function that takes the parameters one after the other. -/
def curried (parameters : List String) (body : Node) : Node :=
  parameters.foldr function body

/-- The application of a function to arguments one after the other. -/
def applyAll (callee : Node) (arguments : List Node) : Node :=
  arguments.foldl apply callee

/-- The parameters that a chain of functions takes. -/
def parameters : Node → List String
  | .function parameter body => parameter :: body.parameters
  | _ => []

/-- Whether the node is a number or a truth value. -/
def isLiteral : Node → Bool
  | .integer _ | .float _ | .boolean _ => true
  | _ => false

/-- What kind of node this is, in words. -/
def kindName : Node → String
  | .integer _ => "integer"
  | .float _ => "float"
  | .boolean _ => "boolean"
  | .noValue => "no value"
  | .binary .. => "binary operation"
  | .negation _ => "unary operation"
  | .ifElse .. => "if expression"
  | .var _ => "variable"
  | .function .. => "function"
  | .apply .. => "function application"
  | .declaration .. => "declaration"
  | .typeName _ => "type name"
  | .typeDefinition .. => "custom type definition"
  | .construction .. => "custom type instance"

mutual

/-- Whether two nodes are equal. Numbers are compared as numbers, so the two zeros are
equal and a NaN differs from itself. -/
def same : Node → Node → Bool
  | .integer a, .integer b => a == b
  | .float a, .float b => a == b
  | .boolean a, .boolean b => a == b
  | .noValue, .noValue => true
  | .binary op left right, .binary op' left' right' =>
      op == op' && same left left' && same right right'
  | .negation operand, .negation operand' => same operand operand'
  | .ifElse conditions branches, .ifElse conditions' branches' =>
      sameAll conditions conditions' && sameAll branches branches'
  | .var name, .var name' => name == name'
  | .function parameter body, .function parameter' body' =>
      parameter == parameter' && same body body'
  | .apply callee argument, .apply callee' argument' =>
      same callee callee' && same argument argument'
  | .declaration name body, .declaration name' body' => name == name' && same body body'
  | .typeName name, .typeName name' => name == name'
  | .typeDefinition name parameters constructors,
      .typeDefinition name' parameters' constructors' =>
      name == name' && parameters == parameters' && sameConstructors constructors constructors'
  | .construction constructor arguments, .construction constructor' arguments' =>
      constructor == constructor' && sameAll arguments arguments'
  | _, _ => false

/-- Whether two lists hold equal nodes. -/
def sameAll : List Node → List Node → Bool
  | [], [] => true
  | node :: nodes, node' :: nodes' => same node node' && sameAll nodes nodes'
  | _, _ => false

/-- Whether two lists hold equal constructors. -/
def sameConstructors : List Constructor → List Constructor → Bool
  | [], [] => true
  | ⟨name, signature⟩ :: constructors, ⟨name', signature'⟩ :: constructors' =>
      name == name' && same signature signature' && sameConstructors constructors constructors'
  | _, _ => false

end

instance : BEq Node := ⟨same⟩

end Node

namespace Constructor

/-- The constructor of the type `result` with the given fields. -/
def ofFields (name : String) (fields : List String) (result : String) : Constructor :=
  ⟨name, Node.curried fields (.typeName result)⟩

/-- The fields of a constructor. -/
def fields (constructor : Constructor) : List String :=
  constructor.signature.parameters

end Constructor

end Viewlet
