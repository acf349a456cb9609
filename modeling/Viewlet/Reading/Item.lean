import Viewlet.Reading.Expression

/-!
The grammar of units.

    item           := typeDefinition | declaration | expression
    declaration    := name name* "=" expression
    typeDefinition := "type" Name name* "=" constructor ("|" constructor)*
    constructor    := Name (Name | name)*

The first tokens of a unit tell which of the three it is.
-/

namespace Viewlet.Parse

/-- Reads a declaration. Its parameters become functions around its body. -/
def declaration : Parse Node := do
  let declared ← label "declaration name" name
  let parameters ← many name
  expect .equals
  return .declaration declared (Node.curried parameters (← expression))

/-- Reads a constructor of the type `result`. -/
def constructor (result : String) : Parse Constructor := do
  let constructorName ← label "constructor" capitalized
  let fields ← many (either capitalized name)
  return Constructor.ofFields constructorName fields result

/-- Reads a further constructor. -/
def alternative (result : String) : Parse Constructor := do
  expect .bar
  constructor result

/-- Reads a type definition. Another name for an existing type is refused. -/
def typeDefinition : Parse Node := do
  expect .wordType
  match ← peek with
  | some token =>
      if token.kind = .wordAlias then fail { reason := .typeAlias, span := some token.span }
  | none => pure ()
  let defined ← capitalized
  let parameters ← many name
  expect .equals
  let first ← constructor defined
  let others ← many (alternative defined)
  return .typeDefinition defined parameters (first :: others)

/-- Whether a token can be a declared name or a parameter. -/
def isPlainName (token : Token) : Bool :=
  token.kind = .name && !Token.isCapitalized token.text

/-- Whether tokens begin with one or more names and an equals sign. -/
def startsDeclaration (tokens : List Token) : Bool :=
  !(tokens.takeWhile isPlainName).isEmpty &&
    (tokens.dropWhile isPlainName).head?.any fun token => token.kind = .equals

/-- Reads a type definition, a declaration or an expression. -/
def item : Parse Node := do
  if (← peekKind) = some .wordType then typeDefinition
  else if startsDeclaration (← get).rest then declaration
  else expression

end Viewlet.Parse
