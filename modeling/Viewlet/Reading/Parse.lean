import Viewlet.Reading.Reader

/-!
The building blocks of grammars. A failing parse has recorded its complaint, and leaves
the reader where it failed; only a repetition moves the reader back.
-/

namespace Viewlet

/-- A parse: reads with a reader, and gives a result or a complaint. -/
abbrev Parse (α : Type) : Type := ExceptT SyntaxError (StateM Reader) α

namespace Parse

variable {α : Type}

/-- Records a complaint and fails with it. -/
def fail (error : SyntaxError) : Parse α := do
  modify fun reader => reader.record error
  throw error

/-- Fails because something else was expected. -/
def unexpected (expected : String) : Parse α := do
  fail ((← get).mismatch expected)

/-- The next token of the unit. -/
def peek : Parse (Option Token) := do
  return (← get).peek?

/-- The kind of the next token of the unit. -/
def peekKind : Parse (Option Token.Kind) := do
  return (← peek).map (·.kind)

/-- Steps over the next token. -/
def advance : Parse Unit :=
  modify Reader.advance

/-- The number of tokens left in the unit. -/
def remaining : Parse Nat := do
  let reader ← get
  return reader.limit - reader.index

/-- Steps over a token of a kind with one spelling. -/
def expect (kind : Token.Kind) : Parse Unit := do
  if (← peekKind) = some kind then advance
  else unexpected (kind.describe (kind.spelling?.getD ""))

/-- Reads a name that satisfies a condition. -/
def nameWhere (admits : String → Bool) (expected : String) : Parse String := do
  match ← peek with
  | some token =>
      if token.kind = .name ∧ admits token.text = true then
        advance
        return token.text
      else unexpected expected
  | none => unexpected expected

/-- Reads a name that does not start with a capital letter. -/
def name : Parse String :=
  nameWhere (fun text => !Token.isCapitalized text) "identifier"

/-- Reads a name that starts with a capital letter. -/
def capitalized : Parse String :=
  nameWhere Token.isCapitalized "type name"

/-- Replaces what a failing parse expected. -/
def label (expected : String) (parse : Parse α) : Parse α :=
  tryCatch parse fun error => fail { error with expected := [expected] }

/-- Tries one parse and, if it fails, another one from the same place. -/
def either (first second : Parse α) : Parse α := do
  let start := (← get).index
  tryCatch first fun _ => do
    modify fun reader => reader.moveTo start
    second

/-- Repeats a parse at most `count` times, until it fails. The failing try leaves the
reader where it stood before it. -/
def manyUpTo (parse : Parse α) : (count : Nat) → Parse (List α)
  | 0 => return []
  | count + 1 => do
      let start := (← get).index
      match ← tryCatch (some <$> parse) (fun _ => return none) with
      | some result => return result :: (← manyUpTo parse count)
      | none =>
          modify fun reader => reader.moveTo start
          return []

/-- Repeats a parse that takes at least one token until it fails. -/
def many (parse : Parse α) : Parse (List α) := do
  manyUpTo parse ((← remaining) + 1)

/-- Repeats a parse that takes at least one token until it fails, which must not be at
once. -/
def manyOne (parse : Parse α) : Parse (List α) := do
  let first ← parse
  return first :: (← many parse)

end Parse

end Viewlet
