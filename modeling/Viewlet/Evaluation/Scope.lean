import Viewlet.Node

/-!
Scopes: the names bound around a node, the innermost first. A name can be bound to the
placeholder, which makes it known but unresolved.
-/

namespace Viewlet

/-- Names with what they are bound to. -/
abbrev Scope : Type := List (String × Node)

namespace Scope

/-- Binds a name around everything else. -/
def bind (scope : Scope) (name : String) (value : Node) : Scope :=
  (name, value) :: scope

/-- Binds a name whose value is not known. -/
def bindUnresolved (scope : Scope) (name : String) : Scope :=
  scope.bind name .noValue

/-- What a name is bound to. -/
def get? (scope : Scope) (name : String) : Option Node :=
  scope.lookup name

/-- Whether a name is bound but not resolved. -/
def isUnresolved (scope : Scope) (name : String) : Bool :=
  match scope.get? name with
  | some .noValue => true
  | _ => false

end Scope

namespace Node

mutual

/-- The variables of an expression that no function around them binds. Only the parts that
are evaluated with an expression count as parts of it. -/
def freeNames : (bound : List String) → Node → List String
  | bound, .var name => if bound.contains name then [] else [name]
  | bound, .function parameter body => freeNames (parameter :: bound) body
  | bound, .apply callee argument => freeNames bound callee ++ freeNames bound argument
  | bound, .binary _ left right => freeNames bound left ++ freeNames bound right
  | bound, .negation operand => freeNames bound operand
  | bound, .ifElse conditions branches =>
      freeNamesAll bound conditions ++ freeNamesAll bound branches
  | _, _ => []

/-- The free variables of expressions. -/
def freeNamesAll : (bound : List String) → List Node → List String
  | _, [] => []
  | bound, node :: nodes => freeNames bound node ++ freeNamesAll bound nodes

end

/-- Whether an expression mentions a name that is bound but not resolved. -/
def mentionsUnresolved (node : Node) (scope : Scope) : Bool :=
  (node.freeNames []).any scope.isUnresolved

mutual

/-- Replaces the variables of an expression that are bound to a value. -/
def substitute : Scope → Node → Node
  | scope, .var name =>
      match scope.get? name with
      | none => .var name
      | some .noValue => .var name
      | some value => value
  | scope, .function parameter body =>
      .function parameter (substitute (scope.bindUnresolved parameter) body)
  | scope, .apply callee argument =>
      .apply (substitute scope callee) (substitute scope argument)
  | scope, .binary op left right => .binary op (substitute scope left) (substitute scope right)
  | scope, .negation operand => .negation (substitute scope operand)
  | scope, .ifElse conditions branches =>
      .ifElse (substituteAll scope conditions) (substituteAll scope branches)
  | _, node => node

/-- Replaces variables in expressions. -/
def substituteAll : Scope → List Node → List Node
  | _, [] => []
  | scope, node :: nodes => substitute scope node :: substituteAll scope nodes

end

end Node

end Viewlet
