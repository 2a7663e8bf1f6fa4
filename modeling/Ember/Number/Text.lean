import Ember.Number.Shortest

/-!
# Numbers as text

How floating-point numbers are written: with the fewest digits that read back, in positions for middle magnitudes and with
an exponent for the others.
-/

namespace Ember.Number

/-- Decisions on the written form of a number. -/
structure Layout where
  /-- The least power of ten written in positions. -/
  from10 : Int
  /-- The least power of ten no longer written in positions. -/
  to10 : Int
  /-- What follows a whole number written in positions. -/
  whole : String
  /-- What stands before the exponent. -/
  mark : String
  nan : String
  infinity : String
  minus : String

/-- From `1e-4` up to `1e16` numbers are written in positions, and whole ones keep `.0`. -/
def Layout.standard : Layout :=
  { from10 := -4, to10 := 16, whole := ".0", mark := "e", nan := "NaN", infinity := "inf", minus := "-" }

namespace Layout

/-- A decimal without trailing zeros, in positions. -/
def positional (l : Layout) (d : Decimal) : String :=
  let digits := Nat.toDigits 10 d.digits
  match d.exponent with
  | .ofNat k => String.ofList (digits ++ List.replicate k '0') ++ l.whole
  | .negSucc k =>
    let places := k + 1
    if digits.length ≤ places then
      "0." ++ String.ofList (List.replicate (places - digits.length) '0' ++ digits)
    else
      let before := digits.length - places
      String.ofList (digits.take before) ++ "." ++ String.ofList (digits.drop before)

/-- A decimal without trailing zeros, with one digit before the point and an exponent. -/
def scientific (l : Layout) (d : Decimal) : String :=
  let digits := Nat.toDigits 10 d.digits
  let power := d.exponent + (digits.length - 1 : Nat)
  let fraction := digits.drop 1
  String.ofList (digits.take 1) ++ (if fraction.isEmpty then "" else "." ++ String.ofList fraction) ++ l.mark ++
    toString power

/-- A positive decimal. -/
def decimal (l : Layout) (d : Decimal) : String :=
  let power := d.exponent + ((Nat.toDigits 10 d.digits).length - 1 : Nat)
  if l.from10 ≤ power && power < l.to10 then l.positional d else l.scientific d

/-- A number of a format, taken apart. -/
def render (l : Layout) (f : Format) : Parts → String
  | .nan => l.nan
  | .infinite negative => (if negative then l.minus else "") ++ l.infinity
  | .finite negative mantissa exponent =>
    let sign := if negative then l.minus else ""
    if mantissa = 0 then sign ++ "0" ++ l.whole
    else sign ++ l.decimal (shortest f mantissa exponent)

end Layout

end Ember.Number

namespace Ember.Double

open Number

/-- The text of a double. -/
def text (x : Double) : String :=
  Layout.standard.render .double x.parts

/-- The text of a double rounded to single precision: the fewest digits that read back as that single. -/
def singleText (x : Double) : String :=
  Layout.standard.render .single (.ofBits .single x.singleBits)

end Ember.Double
