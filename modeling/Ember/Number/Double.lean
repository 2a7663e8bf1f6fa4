import Ember.Number.Format

/-!
# Doubles

Floating-point numbers of 64 bits, as patterns of bits, and what the language does with them: arithmetic, comparison,
rounding to single precision, conversion from and to integers. The result of an operation is its exact value, rounded once.
An operation without a value gives the indefinite pattern; one on a pattern that is not a number passes that pattern on.
-/

namespace Ember

/-- A floating-point number, by its pattern of bits. -/
structure Double where
  bits : UInt64
deriving DecidableEq, Repr

namespace Number

/-- A floating-point number, taken apart. -/
inductive Parts where
  | nan
  | infinite (negative : Bool)
  | finite (negative : Bool) (mantissa : Nat) (exponent : Int)
deriving DecidableEq, Repr

/-- Takes a pattern of a format apart; the bit above the exponent field is the sign. -/
def Parts.ofBits (f : Format) (bits : Nat) : Parts :=
  let signBit := Nat.pow 2 (f.fraction + f.exponent)
  let magnitude := bits % signBit
  let negative := signBit ≤ bits
  if f.infinity < magnitude then .nan
  else if magnitude = f.infinity then .infinite negative
  else
    let (mantissa, exponent) := f.parts magnitude
    .finite negative mantissa exponent

/-- The ratio `mantissa * 2 ^ exponent`. -/
def ratio (mantissa : Nat) (exponent : Int) : Nat × Nat :=
  Format.scale mantissa 1 (-exponent)

end Number

namespace Double

open Number

/-- Takes a double apart. -/
def parts (x : Double) : Parts :=
  .ofBits .double x.bits.toNat

/-- Whether the sign bit is set. -/
def isNegative (x : Double) : Bool :=
  0x8000000000000000 ≤ x.bits

/-- The pattern without its sign bit. -/
def magnitude (x : Double) : Nat :=
  x.bits.toNat % 0x8000000000000000

def isNaN (x : Double) : Bool :=
  Format.double.infinity < x.magnitude

/-- The double of a sign and a magnitude. -/
def ofMagnitude (negative : Bool) (magnitude : Nat) : Double :=
  ⟨UInt64.ofNat (if negative then 0x8000000000000000 + magnitude else magnitude)⟩

def zero : Double := ⟨0⟩

def infinity (negative : Bool) : Double :=
  ofMagnitude negative Format.double.infinity

/-- The double nearest to a signed ratio. -/
def ofRatio (negative : Bool) (num den : Nat) : Double :=
  ofMagnitude negative (Format.double.nearest num den)

/-- The double nearest to `mantissa * 2 ^ exponent`. -/
def ofScaled (negative : Bool) (mantissa : Nat) (exponent : Int) : Double :=
  let (num, den) := ratio mantissa exponent
  ofRatio negative num den

/-- The double nearest to an integer. -/
def ofInt (n : Int) : Double :=
  ofRatio (n < 0) n.natAbs 1

/-! ### Numbers that are none -/

/-- The bit that marks a pattern that is not a number as quiet. -/
def quietBit : UInt64 := 0x0008000000000000

/-- What an operation without a value gives. -/
def indefinite : Double := ⟨0xfff8000000000000⟩

/-- A pattern that is not a number, as operations pass it on. -/
def quiet (x : Double) : Double :=
  ⟨x.bits ||| quietBit⟩

/-- Passes on the first operand that is not a number; applies an operation to others. -/
def unlessNaN (x y : Double) (result : Parts → Parts → Double) : Double :=
  if x.isNaN then x.quiet
  else if y.isNaN then y.quiet
  else result x.parts y.parts

/-! ### Arithmetic -/

/-- Flips the sign. -/
def neg (x : Double) : Double :=
  ⟨x.bits ^^^ 0x8000000000000000⟩

/-- The signed sum of two scaled mantissas, and its exponent. -/
def sumOf (a : Bool) (m : Nat) (q : Int) (b : Bool) (n : Nat) (r : Int) : Int × Int :=
  let least := min q r
  let signed (negative : Bool) (k : Nat) : Int := if negative then -k else k
  (signed a (m * Nat.pow 2 (q - least).toNat) + signed b (n * Nat.pow 2 (r - least).toNat), least)

/-- The sum of two numbers. A sum of zero is negative only if both sides are. -/
def addParts : Parts → Parts → Double
  | .infinite a, .infinite b => if a = b then infinity a else indefinite
  | .infinite a, _ => infinity a
  | _, .infinite b => infinity b
  | .finite a m q, .finite b n r =>
    let (total, exponent) := sumOf a m q b n r
    if total = 0 then ofMagnitude (a && b) 0 else ofScaled (total < 0) total.natAbs exponent
  | _, _ => indefinite

def add (x y : Double) : Double :=
  x.unlessNaN y addParts

def sub (x y : Double) : Double :=
  x.unlessNaN y fun _ _ => addParts x.parts y.neg.parts

/-- The product of two numbers. -/
def mulParts : Parts → Parts → Double
  | .finite a m q, .finite b n r => ofScaled (a != b) (m * n) (q + r)
  | .infinite a, .infinite b => infinity (a != b)
  | .infinite a, .finite b n _ => if n = 0 then indefinite else infinity (a != b)
  | .finite a m _, .infinite b => if m = 0 then indefinite else infinity (a != b)
  | _, _ => indefinite

def mul (x y : Double) : Double :=
  x.unlessNaN y mulParts

/-- The quotient of two numbers. -/
def divParts : Parts → Parts → Double
  | .finite a m q, .finite b n r =>
    if n = 0 then if m = 0 then indefinite else infinity (a != b)
    else
      let (num, den) := ratio m (q - r)
      ofRatio (a != b) num (den * n)
  | .finite a _ _, .infinite b => ofMagnitude (a != b) 0
  | .infinite a, .finite b _ _ => infinity (a != b)
  | _, _ => indefinite

def div (x y : Double) : Double :=
  x.unlessNaN y divParts

/-- The remainder of the division that rounds toward zero, exact and with the sign of the dividend. -/
def remParts : Parts → Parts → Double
  | .finite a m q, .infinite _ => ofScaled a m q
  | .finite a m q, .finite _ n r =>
    if n = 0 then indefinite
    else
      let least := min q r
      ofScaled a (m * Nat.pow 2 (q - least).toNat % (n * Nat.pow 2 (r - least).toNat)) least
  | _, _ => indefinite

def rem (x y : Double) : Double :=
  x.unlessNaN y remParts

/-! ### Comparison -/

/-- The place of a number in the order of numbers; both zeros have the same. -/
def rank (x : Double) : Int :=
  if x.isNegative then -x.magnitude else x.magnitude

/-- Whether both are numbers. -/
def areOrdered (x y : Double) : Bool :=
  !x.isNaN && !y.isNaN

/-- Whether two doubles are the same number. Zero is the same as negative zero, and what is not a number is the same as
nothing. -/
def same (x y : Double) : Bool :=
  areOrdered x y && x.rank == y.rank

def less (x y : Double) : Bool :=
  areOrdered x y && decide (x.rank < y.rank)

def atMost (x y : Double) : Bool :=
  areOrdered x y && decide (x.rank ≤ y.rank)

/-! ### Conversion -/

/-- The pattern of the single nearest to a double. What is not a number keeps its sign and the upper part of its fraction. -/
def singleBits (x : Double) : Nat :=
  let signed (negative : Bool) (magnitude : Nat) := if negative then 0x80000000 + magnitude else magnitude
  match x.parts with
  | .nan => signed x.isNegative (0x7fc00000 ||| x.magnitude % 0x10000000000000 / 0x20000000)
  | .infinite negative => signed negative Format.single.infinity
  | .finite negative mantissa exponent =>
    let (num, den) := ratio mantissa exponent
    signed negative (Format.single.nearest num den)

/-- The double with the value of a single, given by its pattern. -/
def ofSingleBits (bits : Nat) : Double :=
  match Parts.ofBits .single bits with
  | .nan => (ofMagnitude (0x80000000 ≤ bits) (Format.double.infinity + bits % 0x800000 * 0x20000000)).quiet
  | .infinite negative => infinity negative
  | .finite negative mantissa exponent => ofScaled negative mantissa exponent

/-- Rounds to single precision. -/
def toSingle (x : Double) : Double :=
  ofSingleBits x.singleBits

/-- The integer part of a double, kept between two bounds; zero if it is not a number. -/
def truncate (low high : Int) (x : Double) : Int :=
  match x.parts with
  | .nan => 0
  | .infinite negative => if negative then low else high
  | .finite negative mantissa exponent =>
    let (num, den) := ratio mantissa exponent
    let magnitude : Int := (num / den : Nat)
    max low (min high (if negative then -magnitude else magnitude))

end Double

end Ember
