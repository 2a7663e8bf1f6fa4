import Ember.Number.Double

/-!
# The fewest digits that read back

A finite magnitude of a format stands for all reals that round to it. The shortest decimal of it is the first decimal, by
number of digits, that one of these reals has: at each number of digits only the two neighbours of the value on that
decimal grid need to be tested. Of two that fit the nearer one is taken, and a tie goes up.
-/

namespace Ember.Number

/-- A positive decimal `digits * 10 ^ exponent`. -/
structure Decimal where
  digits : Nat
  exponent : Int
deriving DecidableEq, Repr

/-- The reals that round to one magnitude, as ratios over one denominator: from `low` to `high`, the ends included if
`closed`, around `value`. -/
structure Cell where
  low : Nat
  value : Nat
  high : Nat
  den : Nat
  closed : Bool
deriving DecidableEq, Repr

namespace Cell

/-- The cell of a positive magnitude. Below a power of two the numbers lie twice as close. -/
def ofParts (f : Format) (mantissa : Nat) (exponent : Int) : Cell :=
  let gap := if mantissa = Nat.pow 2 f.fraction ∧ f.least < exponent then 1 else 2
  let (unit, den) := ratio 1 (exponent - 2)
  { low := (4 * mantissa - gap) * unit
    value := 4 * mantissa * unit
    high := (4 * mantissa + 2) * unit
    den := den
    closed := mantissa % 2 == 0 }

/-- The cell multiplied by `10 ^ k`. -/
def shift (c : Cell) (k : Int) : Cell :=
  match k with
  | .ofNat k =>
    let power := Nat.pow 10 k
    { c with low := c.low * power, value := c.value * power, high := c.high * power }
  | .negSucc k => { c with den := c.den * Nat.pow 10 (k + 1) }

/-- Whether a natural lies in the cell. -/
def holds (c : Cell) (n : Nat) : Bool :=
  let scaled := n * c.den
  if c.closed then c.low ≤ scaled && scaled ≤ c.high else c.low < scaled && scaled < c.high

/-- The natural nearest to the value, of its two neighbours that lie in the cell. -/
def neighbour (c : Cell) : Option Nat :=
  let below := c.value / c.den
  let above := below + 1
  match c.holds below, c.holds above with
  | true, true => some (if 2 * (c.value % c.den) < c.den then below else above)
  | true, false => some below
  | false, true => some above
  | false, false => none

/-- The number of digits before the decimal point of the value; for a value below one, less the zeros after the point. -/
def magnitude (c : Cell) : Int :=
  if c.den ≤ c.value then ((Nat.toDigits 10 (c.value / c.den)).length : Int)
  else 1 - ((Nat.toDigits 10 ((c.den - 1) / c.value)).length : Int)

/-- The first decimal of at least `count` digits in the cell, looking at `fuel` numbers of digits. -/
def search (c : Cell) (magnitude : Int) : (fuel count : Nat) → Decimal
  | 0, count => ⟨c.value / c.den, (count : Int)⟩
  | fuel + 1, count =>
    let places := (count : Int) - magnitude
    match (c.shift places).neighbour with
    | some digits => ⟨digits, -places⟩
    | none => search c magnitude fuel (count + 1)

/-- The shortest decimal of the cell; seventeen digits are enough for both formats. -/
def shortest (c : Cell) : Decimal :=
  c.search c.magnitude 20 1

end Cell

/-- The decimal without trailing zeros. -/
def Decimal.strip (fuel : Nat) (d : Decimal) : Decimal :=
  match fuel with
  | 0 => d
  | fuel + 1 => if d.digits % 10 = 0 ∧ d.digits ≠ 0 then strip fuel ⟨d.digits / 10, d.exponent + 1⟩ else d

/-- The shortest decimal of a positive finite magnitude. -/
def shortest (f : Format) (mantissa : Nat) (exponent : Int) : Decimal :=
  (Cell.ofParts f mantissa exponent).shortest.strip 20

end Ember.Number
