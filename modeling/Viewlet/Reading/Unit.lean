import Viewlet.Reading.Item

/-!
Reading unit by unit. A unit that fails is passed over as a whole, so the next one is read
as if it stood alone.
-/

namespace Viewlet.Reader

/-- Reads one unit. If the unit is not read to its end the complaint is about the first
token left, and if reading it fails the complaint is the one made furthest into the unit. -/
def readUnit (parse : Parse Node) (reader : Reader) : Except SyntaxError Node × Reader :=
  let reader := reader.beginUnit
  if reader.hasNext then
    match parse.run.run reader with
    | (.ok node, after) =>
        if after.hasNext then (.error (after.errorHere .unexpectedToken), after.skipUnit)
        else (.ok node, after)
    | (.error error, after) => (.error (after.furthestError?.getD error), after.skipUnit)
  else (.error { reason := .unexpectedEnd }, reader)

/-- Reads at most `count` units, until the stream ends. -/
def readUpTo (parse : Parse Node) :
    (count : Nat) → Reader → List (Except SyntaxError Node) × Reader
  | 0, reader => ([], reader)
  | count + 1, reader =>
      if reader.isDone then ([], reader)
      else
        let (result, next) := reader.readUnit parse
        let (results, last) := readUpTo parse count next
        (result :: results, last)

/-- Reads every unit that is left. -/
def readAll (parse : Parse Node) (reader : Reader) : List (Except SyntaxError Node) × Reader :=
  readUpTo parse reader.tokens.length reader

end Viewlet.Reader

namespace Viewlet

/-- The nodes and the complaints among the results of reading units, each in order. -/
def separate (results : List (Except SyntaxError Node)) : List Node × List SyntaxError :=
  (results.filterMap fun
      | .ok node => some node
      | .error _ => none,
    results.filterMap fun
      | .ok _ => none
      | .error error => some error)

/-- The nodes of the units of a text, and the complaints about those that have none. -/
def readProgram (source : String) : Except LexError (List Node × List SyntaxError) := do
  let stream ← TokenStream.ofSource source
  return separate ((Reader.ofStream stream).readAll Parse.item).1

end Viewlet
