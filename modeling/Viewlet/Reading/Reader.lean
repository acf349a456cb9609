import Viewlet.Reading.SyntaxError
import Viewlet.TokenStream

/-!
A reader stands in a stream of tokens and sees no further than the end of its unit. It
remembers the complaint that was made furthest into the unit, the latest of those made at
one place.
-/

namespace Viewlet

/-- A place in a stream of tokens with the end of the current unit, the furthest complaint
in the unit with the index at which it was made, and the complaints collected so far. -/
structure Reader where
  tokens : List Token
  unitStarts : List Nat
  index : Nat
  limit : Nat
  furthest : Option (Nat × SyntaxError)
  errors : List SyntaxError
  deriving DecidableEq, Repr

namespace Reader

/-- Limits the reader to the unit that begins where it stands, and forgets the furthest
complaint. -/
def beginUnit (reader : Reader) : Reader :=
  { reader with
    limit :=
      (reader.unitStarts.find? fun start => reader.index < start).getD reader.tokens.length
    furthest := none }

/-- A reader at the beginning of tokens with the given unit starts. -/
def ofTokens (tokens : List Token) (unitStarts : List Nat) : Reader :=
  beginUnit ⟨tokens, unitStarts, 0, tokens.length, none, []⟩

/-- A reader at the beginning of a stream. -/
def ofStream (stream : TokenStream) : Reader :=
  ofTokens stream.tokens stream.unitStarts

/-- Whether the unit has tokens left. -/
def hasNext (reader : Reader) : Bool :=
  reader.index < reader.limit

/-- Whether the stream is read to its end. -/
def isDone (reader : Reader) : Bool :=
  reader.tokens.length ≤ reader.index

/-- The token `offset` places ahead, if it belongs to the unit. -/
def peekAt? (reader : Reader) (offset : Nat) : Option Token :=
  if reader.index + offset < reader.limit then reader.tokens[reader.index + offset]? else none

/-- The next token of the unit. -/
def peek? (reader : Reader) : Option Token :=
  reader.peekAt? 0

/-- The tokens of the unit that are left. -/
def rest (reader : Reader) : List Token :=
  (reader.tokens.take reader.limit).drop reader.index

/-- Steps over the next token of the unit. -/
def advance (reader : Reader) : Reader :=
  if reader.hasNext then { reader with index := reader.index + 1 } else reader

/-- Moves the reader to an index. -/
def moveTo (reader : Reader) (index : Nat) : Reader :=
  { reader with index := index }

/-- Steps over the rest of the unit. -/
def skipUnit (reader : Reader) : Reader :=
  reader.moveTo reader.limit

/-- Remembers a complaint made at the current index, unless one was made further on. -/
def record (reader : Reader) (error : SyntaxError) : Reader :=
  match reader.furthest with
  | some (index, _) =>
      if reader.index < index then reader
      else { reader with furthest := some (reader.index, error) }
  | none => { reader with furthest := some (reader.index, error) }

/-- The complaint made furthest into the unit. -/
def furthestError? (reader : Reader) : Option SyntaxError :=
  reader.furthest.map (·.2)

/-- Adds a complaint to those collected. -/
def collect (reader : Reader) (error : SyntaxError) : Reader :=
  { reader with errors := reader.errors ++ [error] }

/-- Moves the furthest complaint to those collected. -/
def commit (reader : Reader) : Reader :=
  match reader.furthest with
  | some (_, error) => { reader.collect error with furthest := none }
  | none => reader

/-- Forgets the complaints collected. -/
def dropErrors (reader : Reader) : Reader :=
  { reader with errors := [] }

/-- A complaint about the next token. -/
def errorHere (reader : Reader) (reason : Reason) : SyntaxError :=
  match reader.peek? with
  | some token => { reason, found := some token.describe, span := some token.span }
  | none => { reason, found := some "end of input" }

/-- A complaint that something else was expected than the next token. -/
def mismatch (reader : Reader) (expected : String) : SyntaxError :=
  match reader.peek? with
  | some token =>
      { reason := .unexpectedToken
        expected := [expected]
        found := some token.describe
        span := some token.span }
  | none => { reason := .unexpectedEnd, expected := [expected] }

/-- The next token is the first of those left. -/
theorem peek?_eq_head? (reader : Reader) : reader.peek? = reader.rest.head? := by
  simp only [peek?, peekAt?, rest, Nat.add_zero, List.head?_drop, List.getElem?_take]

end Reader

end Viewlet
