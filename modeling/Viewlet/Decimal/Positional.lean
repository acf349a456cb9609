import Viewlet.Decimal.Shortest

/-!
Numbers written without an exponent.
-/

namespace Viewlet.Decimal

/-- The digits of `digits * 10 ^ place` with a point where one is needed. -/
def positional (digits : Nat) (place : Int) : String :=
  let written := Nat.toDigits 10 digits
  match place with
  | .ofNat zeros => String.ofList (written ++ List.replicate zeros '0')
  | .negSucc below =>
      let decimals := below + 1
      let padded := List.replicate (decimals + 1 - written.length) '0' ++ written
      let whole := padded.length - decimals
      String.ofList (padded.take whole ++ '.' :: padded.drop whole)

/-- A floating point number in text: the shortest digits that read back, with a fraction
also where it is zero. -/
def ofFloat (value : Float) : String :=
  if value.isNaN then "NaN"
  else
    let bits := value.toBits.toNat
    let sign := if Nat.pow 2 63 ≤ bits then "-" else ""
    let magnitude := bits % Nat.pow 2 63
    if magnitude = 0x7ff0000000000000 then sign ++ "inf"
    else if magnitude = 0 then sign ++ "0.0"
    else
      let (digits, place) := shortest (Binary.ofBits magnitude)
      sign ++ positional digits place ++ if 0 ≤ place then ".0" else ""

/-- The number that decimal digits denote. Characters that are no digits count as their
distance from the digit zero. -/
def digitsValue (digits : List Char) : Nat :=
  digits.foldl (fun value c => 10 * value + (c.toNat - '0'.toNat)) 0

/-- The floating point number nearest to the one that digits with a point denote. -/
def toFloat (text : List Char) : Float :=
  let whole := text.takeWhile Char.isDigit
  let fraction := (text.drop whole.length).filter Char.isDigit
  Float.ofScientific (digitsValue (whole ++ fraction)) true fraction.length

end Viewlet.Decimal
