import Ember.Number.Double

/-!
# Reading decimal numbers

A run of digits is a natural; digits with a power of ten are the nearest double. Powers far outside the range of doubles are
decided by the length of the digits alone, so that no huge power is computed.
-/

namespace Ember.Number

/-- The value of a hexadecimal digit, and so of a decimal one. -/
def digitValue (c : Char) : Nat :=
  if c.isDigit then c.toNat - '0'.toNat
  else if 'a' ≤ c ∧ c ≤ 'f' then c.toNat - 'a'.toNat + 10
  else c.toNat - 'A'.toNat + 10

/-- The natural that digits write in a base. -/
def ofDigits (base : Nat) (digits : List Char) : Nat :=
  digits.foldl (fun n c => n * base + digitValue c) 0

end Ember.Number

namespace Ember.Double

open Number

/-- The double nearest to `digits * 10 ^ exponent`. -/
def ofDecimal (digits : List Char) (exponent : Int) : Double :=
  let significant := digits.dropWhile (· == '0')
  let top : Int := exponent + significant.length
  if significant.isEmpty || top < -400 then zero
  else if 400 < top then infinity false
  else
    let n := ofDigits 10 significant
    match exponent with
    | .ofNat k => ofRatio false (n * Nat.pow 10 k) 1
    | .negSucc k => ofRatio false n (Nat.pow 10 (k + 1))

end Ember.Double
