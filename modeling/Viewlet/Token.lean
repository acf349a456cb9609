import Viewlet.Span

/-!
Tokens. A kind is either one fixed spelling (a word or a symbol) or a class of spellings
(names and literals). The order of `Kind.all` decides between two kinds that match equally
far.
-/

namespace Viewlet

/-- The kinds of tokens, in order of preference. -/
inductive Token.Kind where
  | wordIf | wordThen | wordElse | wordCase | wordOf | wordLet | wordIn | wordType | wordAlias
  | wordTrue | wordFalse
  | name | float | integer | string | char
  | plusPlus | plus | arrow | minus | star | caret | notEquals | slash | doubleEquals | equals
  | lessEquals | pipeLeft | lessThan | greaterEquals | greaterThan | logicalAnd | logicalOr
  | pipeRight | bar | doubleColon | colon | backslash
  | leftParen | rightParen | leftBrace | rightBrace | leftBracket | rightBracket | dot | comma
  deriving DecidableEq, Repr

/-- A token: its kind, the text it was read from, and where that text stands. -/
structure Token where
  kind : Token.Kind
  text : String
  span : Span
  deriving DecidableEq, Repr

namespace Token

/-- Every kind, in order of preference. -/
def Kind.all : List Kind :=
  [.wordIf, .wordThen, .wordElse, .wordCase, .wordOf, .wordLet, .wordIn, .wordType, .wordAlias,
    .wordTrue, .wordFalse, .name, .float, .integer, .string, .char, .plusPlus, .plus,
    .arrow, .minus, .star, .caret, .notEquals, .slash, .doubleEquals, .equals, .lessEquals,
    .pipeLeft, .lessThan, .greaterEquals, .greaterThan, .logicalAnd, .logicalOr, .pipeRight,
    .bar, .doubleColon, .colon, .backslash, .leftParen, .rightParen, .leftBrace, .rightBrace,
    .leftBracket, .rightBracket, .dot, .comma]

/-- The spelling of a kind that has only one. -/
def Kind.spelling? : Kind → Option String
  | .wordIf => some "if"
  | .wordThen => some "then"
  | .wordElse => some "else"
  | .wordCase => some "case"
  | .wordOf => some "of"
  | .wordLet => some "let"
  | .wordIn => some "in"
  | .wordType => some "type"
  | .wordAlias => some "alias"
  | .wordTrue => some "True"
  | .wordFalse => some "False"
  | .name | .float | .integer | .string | .char => none
  | .plusPlus => some "++"
  | .plus => some "+"
  | .arrow => some "->"
  | .minus => some "-"
  | .star => some "*"
  | .caret => some "^"
  | .notEquals => some "/="
  | .slash => some "/"
  | .doubleEquals => some "=="
  | .equals => some "="
  | .lessEquals => some "<="
  | .pipeLeft => some "<|"
  | .lessThan => some "<"
  | .greaterEquals => some ">="
  | .greaterThan => some ">"
  | .logicalAnd => some "&&"
  | .logicalOr => some "||"
  | .pipeRight => some "|>"
  | .bar => some "|"
  | .doubleColon => some "::"
  | .colon => some ":"
  | .backslash => some "\\"
  | .leftParen => some "("
  | .rightParen => some ")"
  | .leftBrace => some "\x7b"
  | .rightBrace => some "\x7d"
  | .leftBracket => some "["
  | .rightBracket => some "]"
  | .dot => some "."
  | .comma => some ","

/-- The words that can never be names. -/
def Kind.isReserved : Kind → Bool
  | .wordIf | .wordThen | .wordElse | .wordCase | .wordOf | .wordLet | .wordIn | .wordType
  | .wordAlias => true
  | _ => false

/-- How a message calls a token of the given kind and text. -/
def Kind.describe (kind : Kind) (text : String) : String :=
  match kind with
  | .name => "identifier '" ++ text ++ "'"
  | .integer => "integer '" ++ text ++ "'"
  | .float => "float '" ++ text ++ "'"
  | .string => "string " ++ text
  | .char => "char " ++ text
  | _ => "'" ++ text ++ "'"

/-- How a message calls the token. -/
def describe (token : Token) : String :=
  token.kind.describe token.text

/-- Whether a name starts with one of the letters `A` to `Z`. -/
def isCapitalized (name : String) : Bool :=
  name.toList.head?.any Char.isUpper

end Token

end Viewlet
