/-!
The shortest decimal that reads back as a given binary number. A finite number is `m * 2 ^
q`; the reals that round to it form an interval, whose ends belong to it when `m` is even.
Powers of ten give ever finer grids; the number is written with the first grid that has a
point in the interval, and of two such points the nearer one is taken. All of this is
exact arithmetic on natural numbers.
-/

namespace Viewlet.Decimal

/-- A positive number `mantissa * 2 ^ exponent`. The gap to the next smaller number is
half as wide as the gap to the next larger one if `narrow` holds. -/
structure Binary where
  mantissa : Nat
  exponent : Int
  narrow : Bool
  deriving DecidableEq, Repr

/-- The number with the given bits of a 64-bit floating point number, of which only the
eleven exponent bits and the fraction are looked at. -/
def Binary.ofBits (bits : Nat) : Binary :=
  let fraction : Nat := bits % Nat.pow 2 52
  let biased : Nat := bits / Nat.pow 2 52 % Nat.pow 2 11
  if biased = 0 then ⟨fraction, -1074, false⟩
  else ⟨Nat.pow 2 52 + fraction, Int.ofNat biased - 1075, fraction == 0 && 1 < biased⟩

/-- A number between two bounds, all over one denominator. -/
structure Interval where
  low : Nat
  value : Nat
  high : Nat
  denominator : Nat
  closed : Bool
  deriving DecidableEq, Repr

/-- The reals that round to a number. In quarters of its last place, the number lies two
below its upper bound, and two or one above its lower bound. -/
def Binary.interval (b : Binary) : Interval :=
  let scale := Nat.pow 2 b.exponent.toNat
  { low := (4 * b.mantissa - if b.narrow then 1 else 2) * scale
    value := 4 * b.mantissa * scale
    high := (4 * b.mantissa + 2) * scale
    denominator := 4 * Nat.pow 2 (-b.exponent).toNat
    closed := b.mantissa % 2 == 0 }

/-- The interval in units of `10 ^ place`. -/
def Interval.inUnits (i : Interval) (place : Int) : Interval :=
  let factor := Nat.pow 10 (-place).toNat
  { low := i.low * factor
    value := i.value * factor
    high := i.high * factor
    denominator := i.denominator * Nat.pow 10 place.toNat
    closed := i.closed }

/-- Whether an integer lies in the interval. -/
def Interval.contains (i : Interval) (n : Nat) : Bool :=
  let point := n * i.denominator
  if i.closed then i.low ≤ point && point ≤ i.high else i.low < point && point < i.high

/-- The integer of the interval that is nearest to its value, the larger of two equally
near. -/
def Interval.nearest? (i : Interval) : Option Nat :=
  let below := i.value / i.denominator
  let remainder := i.value % i.denominator
  match i.contains below, i.contains (below + 1) with
  | true, true => some (if 2 * remainder < i.denominator then below else below + 1)
  | true, false => some below
  | false, true => some (below + 1)
  | false, false => none

/-- Looks for a grid point in the interval, from the grid of `10 ^ place` through at most
`fuel` finer ones, and answers with the point and the exponent of its grid. -/
def Interval.coarsest (i : Interval) : (fuel : Nat) → (place : Int) → Nat × Int
  | 0, place => ((i.inUnits place).value / (i.inUnits place).denominator, place)
  | fuel + 1, place =>
      match (i.inUnits place).nearest? with
      | some digits => (digits, place)
      | none => i.coarsest fuel (place - 1)

/-- A power of ten that is larger than the number, by a factor below ten thousand. -/
def Binary.bound (b : Binary) : Int :=
  (b.exponent + b.mantissa.log2) * 3 / 10 + 3

/-- The digits and the exponent of the shortest decimal that reads back as the number.
Seventeen digits always suffice. -/
def shortest (b : Binary) : Nat × Int :=
  b.interval.coarsest 24 b.bound

end Viewlet.Decimal
