import Viewlet.Token

/-!
Complaints about the structure of a text.
-/

namespace Viewlet

/-- Why a text has no structure. -/
inductive Reason where
  | unexpectedToken
  | unexpectedEnd
  | typeAlias
  | integerRange
  | severalUnits
  | other (text : String)
  deriving DecidableEq, Repr

/-- The reason in words. -/
def Reason.text : Reason → String
  | unexpectedToken => "unexpected token"
  | unexpectedEnd => "unexpected end of input"
  | typeAlias => "type aliases are not supported"
  | integerRange => "integer literal out of range"
  | severalUnits => "expected a single expression or declaration"
  | other text => text

/-- A complaint: its reason, what would have been right, what was there instead, and
where. -/
structure SyntaxError where
  reason : Reason
  expected : List String := []
  found : Option String := none
  span : Option Span := none
  deriving DecidableEq, Repr

namespace SyntaxError

/-- The complaint on one line, without its place. -/
def summary (error : SyntaxError) : String :=
  let expectation :=
    if error.expected.isEmpty then ""
    else ", expected " ++ String.intercalate " or " error.expected
  let finding :=
    match error.found with
    | some found => ", found " ++ found
    | none => ""
  error.reason.text ++ expectation ++ finding

/-- The complaint as a reader sees it: below an excerpt of the text if its place is known. -/
def message (colored : Bool) (error : SyntaxError) : String :=
  match error.span with
  | some span =>
      if span.source.isEmpty then "Parse error: " ++ error.summary
      else span.excerpt colored error.summary
  | none => "Parse error: " ++ error.summary

end SyntaxError

end Viewlet
