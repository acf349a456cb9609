import Viewlet.Reading.Parse
import Viewlet.Node
import Viewlet.Decimal.Positional

/-!
The grammar of expressions.

    expression  := lambda | conditional | pipeline
    lambda      := "\" name+ "->" expression
    conditional := "if" expression "then" expression ("else" "if" expression "then" expression)*
                   "else" expression
    pipeline    := operation ("|>" operation)* | operation "<|" expression
    operation   := operators in five tiers, each of them associating to the left
    unary       := "not" unary | "-" unary | application
    application := Constructor atom* | atom atom*
    atom        := integer | float | boolean | name | Constructor | "(" expression ")"

Expressions contain expressions only behind a token of their own, so the number of tokens
left bounds how deep they nest. Each rule below is given the parse for the expressions
inside it.
-/

namespace Viewlet.Parse

/-- Reads an integer literal, which must be less than 2 ^ 63. -/
def integer (token : Token) : Parse Node := do
  let value := Decimal.digitsValue token.text.toList
  if value < Nat.pow 2 63 then
    advance
    return .integer (Int64.ofNat value)
  else
    fail { reason := .integerRange, found := some token.text, span := some token.span }

/-- Reads an atom. -/
def atom (expression : Parse Node) : Parse Node := do
  match ← peek with
  | none => unexpected "expression"
  | some token =>
      match token.kind with
      | .integer => integer token
      | .float =>
          advance
          return .float (Decimal.toFloat token.text.toList)
      | .wordTrue =>
          advance
          return .boolean true
      | .wordFalse =>
          advance
          return .boolean false
      | .name =>
          advance
          if Token.isCapitalized token.text then return .construction token.text []
          else return .var token.text
      | .leftParen =>
          advance
          let inner ← expression
          expect .rightParen
          return inner
      | _ => unexpected "expression"

/-- Whether a token can begin an argument. -/
def startsArgument (token : Token) : Bool :=
  match token.kind with
  | .name => token.text != "not"
  | .integer | .float | .wordTrue | .wordFalse | .leftParen => true
  | _ => false

/-- Reads at most `count` atoms, as long as one follows. -/
def argumentsUpTo (expression : Parse Node) : (count : Nat) → Parse (List Node)
  | 0 => return []
  | count + 1 => do
      match ← peek with
      | some token =>
          if startsArgument token then
            let first ← atom expression
            return first :: (← argumentsUpTo expression count)
          else return []
      | none => return []

/-- Reads arguments as long as one follows. -/
def arguments (expression : Parse Node) : Parse (List Node) := do
  argumentsUpTo expression (← remaining)

/-- Reads a constructor or a function with its arguments. -/
def application (expression : Parse Node) : Parse Node := do
  match ← peek with
  | some token =>
      if token.kind = .name ∧ Token.isCapitalized token.text = true then
        advance
        return .construction token.text (← arguments expression)
      else
        let callee ← atom expression
        return callee.applyAll (← arguments expression)
  | none => unexpected "expression"

/-- The negative of an operand. Literals become negative literals. -/
def negate : Node → Node
  | .integer value => .integer (-value)
  | .float value => .float (-value)
  | operand => .binary .sub (.integer 0) operand

/-- Reads an application behind at most `count` signs and negations. -/
def unaryUpTo (expression : Parse Node) : (count : Nat) → Parse Node
  | 0 => application expression
  | count + 1 => do
      match ← peek with
      | some token =>
          if token.kind = .name ∧ token.text = "not" then
            advance
            return .negation (← unaryUpTo expression count)
          else if token.kind = .minus then
            advance
            return negate (← unaryUpTo expression count)
          else application expression
      | none => application expression

/-- Reads an application behind signs and negations. -/
def unary (expression : Parse Node) : Parse Node := do
  unaryUpTo expression (← remaining)

/-- The operators of each tier, from those that bind least. -/
def tiers : List (List (Token.Kind × BinOp)) :=
  [[(.logicalOr, .or)],
    [(.logicalAnd, .and)],
    [(.doubleEquals, .eq), (.notEquals, .ne), (.lessThan, .lt), (.greaterThan, .gt),
      (.lessEquals, .le), (.greaterEquals, .ge)],
    [(.plus, .add), (.minus, .sub)],
    [(.star, .mul), (.slash, .div)]]

/-- Reads at most `count` operators of a tier with their right operands, and puts them
around the left operand. -/
def chainUpTo (operators : List (Token.Kind × BinOp)) (operand : Parse Node) :
    (count : Nat) → Node → Parse Node
  | 0, left => return left
  | count + 1, left => do
      match (← peekKind).bind fun kind => operators.lookup kind with
      | some op =>
          advance
          let right ← operand
          chainUpTo operators operand count (.binary op left right)
      | none => return left

/-- Reads operations of the given tiers. -/
def operation (expression : Parse Node) : List (List (Token.Kind × BinOp)) → Parse Node
  | [] => unary expression
  | operators :: inner => do
      let left ← operation expression inner
      chainUpTo operators (operation expression inner) (← remaining) left

/-- Reads one more step of a pipeline. -/
def pipelineStep (expression : Parse Node) : Parse Node := do
  expect .pipeRight
  operation expression tiers

/-- Reads an operation, and what it is applied to or piped into. -/
def pipeline (expression : Parse Node) : Parse Node := do
  let left ← operation expression tiers
  match ← peekKind with
  | some .pipeLeft =>
      advance
      return .apply left (← expression)
  | some .pipeRight =>
      let steps ← many (pipelineStep expression)
      return steps.foldl (fun argument callee => .apply callee argument) left
  | _ => return left

/-- Reads a function of one or more parameters. -/
def lambda (expression : Parse Node) : Parse Node := do
  expect .backslash
  let parameters ← label "parameter" (manyOne name)
  expect .arrow
  return Node.curried parameters (← expression)

/-- Reads at most `count` conditions with their branches, and the branch after the last of
them. -/
def armsUpTo (expression : Parse Node) : (count : Nat) → Parse (List Node × List Node)
  | 0 => unexpected "expression"
  | count + 1 => do
      let condition ← expression
      expect .wordThen
      let branch ← expression
      expect .wordElse
      if (← peekKind) = some .wordIf then
        advance
        let (conditions, branches) ← armsUpTo expression count
        return (condition :: conditions, branch :: branches)
      else
        return ([condition], [branch, ← expression])

/-- Reads a chain of conditions. -/
def conditional (expression : Parse Node) : Parse Node := do
  expect .wordIf
  let (conditions, branches) ← armsUpTo expression ((← remaining) + 1)
  return .ifElse conditions branches

/-- Reads an expression that nests at most `depth` deep. -/
def expressionWithin : (depth : Nat) → Parse Node
  | 0 => unexpected "expression"
  | depth + 1 => do
      match ← peekKind with
      | some .backslash => lambda (expressionWithin depth)
      | some .wordIf => conditional (expressionWithin depth)
      | _ => pipeline (expressionWithin depth)

/-- Reads an expression. -/
def expression : Parse Node := do
  expressionWithin ((← remaining) + 1)

end Viewlet.Parse
