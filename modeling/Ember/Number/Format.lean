/-!
# Binary formats

The two binary formats of floating-point numbers, as integers: a finite magnitude is `mantissa * 2 ^ exponent`, a pattern of
bits encodes it, and a ratio of naturals rounds to the nearest pattern, a tie to the even one. Every conversion of numbers
(between the formats, from integers, from decimal text, of a remainder) is this one rounding.
-/

namespace Ember.Number

/-- A binary format: the widths of its fraction field and of its exponent field. -/
structure Format where
  fraction : Nat
  exponent : Nat
deriving DecidableEq, Repr

/-- Numbers of 64 bits. -/
def Format.double : Format := ⟨52, 11⟩

/-- Numbers of 32 bits. -/
def Format.single : Format := ⟨23, 8⟩

namespace Format

/-- The exponent of the last place of the smallest numbers. -/
def least (f : Format) : Int :=
  2 - (Nat.pow 2 (f.exponent - 1) : Nat) - f.fraction

/-- The pattern of infinity: all exponent bits set, and no fraction. -/
def infinity (f : Format) : Nat :=
  (Nat.pow 2 f.exponent - 1) * Nat.pow 2 f.fraction

/-- Mantissa and exponent of a finite magnitude. -/
def parts (f : Format) (bits : Nat) : Nat × Int :=
  let field := bits / Nat.pow 2 f.fraction
  let rest := bits % Nat.pow 2 f.fraction
  if field = 0 then (rest, f.least) else (Nat.pow 2 f.fraction + rest, f.least + (field - 1 : Nat))

/-- The ratio `num / den`, divided by `2 ^ q`, again as a ratio. -/
def scale (num den : Nat) (q : Int) : Nat × Nat :=
  match q with
  | .ofNat k => (num, den * Nat.pow 2 k)
  | .negSucc k => (num * Nat.pow 2 (k + 1), den)

/-- The quotient of a ratio, to the nearest natural, a tie to the even one. -/
def roundEven (num den : Nat) : Nat :=
  let quotient := num / den
  let twice := 2 * (num % den)
  if den < twice || (twice == den && quotient % 2 == 1) then quotient + 1 else quotient

/-- The exponent of the last place of the pattern nearest to the positive ratio `num / den`. -/
def place (f : Format) (num den : Nat) : Int :=
  let guess : Int := (num.log2 : Int) - den.log2
  let (n, d) := scale num den guess
  let top := if d ≤ n then guess else guess - 1
  max f.least (top - f.fraction)

/-- The pattern nearest to the ratio `num / den`. A mantissa that rounds up to a power of two carries into the exponent, and
a magnitude beyond the largest finite one becomes infinity. -/
def nearest (f : Format) (num den : Nat) : Nat :=
  if num = 0 then 0
  else
    let q := f.place num den
    let (n, d) := scale num den q
    min f.infinity ((q - f.least).toNat * Nat.pow 2 f.fraction + roundEven n d)

end Format

end Ember.Number
