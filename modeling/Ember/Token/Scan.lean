import Ember.Number.Reading
import Ember.Source.Loc
import Ember.Token.Kind

/-!
# Scanning

A source is a row of characters. At each character that no earlier lexeme owns there stands either a gap (a blank or a
comment) or a lexeme, and in both cases the rule that applies says how many of the characters that follow belong to it. The
scan walks the characters one by one, counts down those that are owned, and so knows the location of every token.
-/

namespace Ember

/-- A token: its kind, and the location of its first character. -/
structure Token where
  kind : Kind
  loc : Loc
deriving DecidableEq

namespace Scan

/-! ## Gaps -/

/-- The characters that separate tokens. -/
def isBlank (c : Char) : Bool :=
  c == ' ' || c == '\t' || c == '\r' || c == '\n'

/-- The width of the rest of a block comment, in which `depth` openings still wait for their end. Comments nest. An
unfinished comment takes the whole rest. -/
def commentWidth : Nat → List Char → Nat
  | 0, _ => 0
  | _ + 1, [] => 0
  | depth + 1, '*' :: '/' :: cs => 2 + commentWidth depth cs
  | depth + 1, '/' :: '*' :: cs => 2 + commentWidth (depth + 2) cs
  | depth + 1, _ :: cs => 1 + commentWidth (depth + 1) cs

/-- If a gap starts at `c`, the number of characters of `cs` that belong to it. -/
def gap? (c : Char) (cs : List Char) : Option Nat :=
  if isBlank c then some 0
  else
    match c, cs with
    | '/', '/' :: _ => some (cs.takeWhile (· != '\n')).length
    | '/', '*' :: rest => some (1 + commentWidth 1 rest)
    | _, _ => none

/-! ## Lexemes -/

/-- The character that an escape stands for. -/
def unescape : Char → Char
  | 'n' => '\n'
  | 'r' => '\r'
  | 't' => '\t'
  | '0' => '\x00'
  | c => c

/-- The value and the width of a string after its opening quote. A string that is not closed ends before the line feed or
at the end of the source; an escape at the end of the source stands for the null character. -/
def stringBody : List Char → List Char × Nat
  | [] => ([], 0)
  | '"' :: _ => ([], 1)
  | '\n' :: _ => ([], 0)
  | ['\\'] => (['\x00'], 1)
  | '\\' :: e :: cs =>
    let (value, width) := stringBody cs
    (unescape e :: value, width + 2)
  | c :: cs =>
    let (value, width) := stringBody cs
    (c :: value, width + 1)

/-- The value and the width of the character after an opening single quote. -/
def charValue : List Char → Char × Nat
  | [] => ('\x00', 0)
  | ['\\'] => ('\x00', 1)
  | '\\' :: e :: _ => (unescape e, 2)
  | c :: _ => (c, 1)

/-- The value and the width of a character literal after its opening quote; the closing quote may be missing. -/
def charBody (cs : List Char) : Char × Nat :=
  let (value, width) := charValue cs
  (value, if (cs.drop width).head? == some '\'' then width + 1 else width)

/-- Digits of base sixteen. -/
def isHexDigit (c : Char) : Bool :=
  c.isDigit || ('a' ≤ c && c ≤ 'f') || ('A' ≤ c && c ≤ 'F')

/-- The run of digits and underscores at the start of `cs`. -/
def digitRun (isDigit : Char → Bool) (cs : List Char) : List Char :=
  cs.takeWhile fun c => isDigit c || c == '_'

/-- The digits of a run. -/
def digitsOf (isDigit : Char → Bool) (run : List Char) : List Char :=
  run.filter isDigit

/-- An integer literal: digits, in a base, that write `text`. -/
def integerKind (base : Nat) (digits : List Char) (text : String) : Kind :=
  let n := Number.ofDigits base digits
  if n < UInt64.size then .integer n else .oversized text

/-- A hexadecimal literal after `0x`. -/
def hexLiteral (cs : List Char) : Kind × Nat :=
  let run := digitRun isHexDigit cs
  let digits := digitsOf isHexDigit run
  (if digits.isEmpty then .unknown 'x' else integerKind 16 digits ("0x" ++ String.ofList digits), run.length)

/-- The fraction of a decimal literal: a point is part of it only before a digit. -/
def fraction (cs : List Char) : Option (List Char × Nat) :=
  match cs with
  | '.' :: rest@(d :: _) =>
    if d.isDigit then
      let run := digitRun Char.isDigit rest
      some (digitsOf Char.isDigit run, 1 + run.length)
    else none
  | _ => none

/-- The exponent of a decimal literal: its sign, its digits (perhaps none) and its width. -/
def exponent (cs : List Char) : Option (Bool × List Char × Nat) :=
  match cs with
  | mark :: rest =>
    if mark == 'e' || mark == 'E' then
      let (negative, signWidth) :=
        match rest with
        | '-' :: _ => (true, 1)
        | '+' :: _ => (false, 1)
        | _ => (false, 0)
      let run := digitRun Char.isDigit (rest.drop signWidth)
      some (negative, digitsOf Char.isDigit run, 1 + signWidth + run.length)
    else none
  | [] => none

/-- A decimal literal and its width. With a fraction or an exponent it is a floating-point number, and malformed if the
exponent has no digits. -/
def decimalLiteral (cs : List Char) : Kind × Nat :=
  let run := digitRun Char.isDigit cs
  let whole := digitsOf Char.isDigit run
  let rest := cs.drop run.length
  match fraction rest with
  | some (digits, width) =>
    match exponent (rest.drop width) with
    | some (negative, power, width') => (scaled (whole ++ digits) digits.length negative power, run.length + width + width')
    | none => (scaled (whole ++ digits) digits.length false ['0'], run.length + width)
  | none =>
    match exponent rest with
    | some (negative, power, width) => (scaled whole 0 negative power, run.length + width)
    | none => (integerKind 10 whole (String.ofList whole), run.length)
where
  /-- The number of `digits`, the last `places` of them after the point, times a power of ten. -/
  scaled (digits : List Char) (places : Nat) (negative : Bool) (power : List Char) : Kind :=
    if power.isEmpty then .unknown '.'
    else
      let n : Int := Number.ofDigits 10 power
      .floating (.ofDecimal digits ((if negative then -n else n) - places))

/-- A number that starts at the digit `c`, and its width. -/
def number (c : Char) (cs : List Char) : Kind × Nat :=
  match c, cs with
  | '0', 'x' :: rest => let (kind, width) := hexLiteral rest; (kind, width + 2)
  | '0', 'X' :: rest => let (kind, width) := hexLiteral rest; (kind, width + 2)
  | _, _ => decimalLiteral (c :: cs)

/-- A word: a keyword or a name. -/
def word (name : String) : Kind :=
  match Keyword.ofWord? name with
  | some k => .keyword k
  | none => .ident name

/-- An operator or a delimiter; two characters win over one. Returns how many characters beyond `c` it has. -/
def operator (c : Char) (cs : List Char) : Kind × Nat :=
  match cs.head?.bind (Mark.ofPair? c) with
  | some m => (.mark m, 1)
  | none =>
    match Mark.ofChar? c with
    | some m => (.mark m, 0)
    | none => (.unknown c, 0)

/-- A byte literal holds a character below 256. -/
def byteKind (c : Char) : Kind :=
  if c.toNat < 256 then .byte c.toNat else .unknown c

/-- The lexeme that starts at `c`: its kind, and the number of characters of `cs` that belong to it. -/
def lexeme (c : Char) (cs : List Char) : Kind × Nat :=
  match c, cs with
  | 'c', '"' :: rest =>
    let (value, width) := stringBody rest
    (.cstring (String.ofList value), width + 1)
  | 'b', '\'' :: rest =>
    let (value, width) := charBody rest
    (byteKind value, width + 1)
  | _, _ =>
    if Text.startsWord c then
      let more := cs.takeWhile Text.continuesWord
      (word (String.ofList (c :: more)), more.length)
    else if c.isDigit then
      let (kind, width) := number c cs
      (kind, width - 1)
    else if c == '"' then
      let (value, width) := stringBody cs
      (.string (String.ofList value), width)
    else if c == '\'' then
      let (value, width) := charBody cs
      (.character value, width)
    else operator c cs

/-! ## The scan -/

/-- The tokens of a row of characters from a location on, the first `owned` of which belong to what came before. The last
token is the end of the file. -/
def tokens : Loc → (owned : Nat) → List Char → List Token
  | loc, _, [] => [⟨.endOfFile, loc⟩]
  | loc, owned + 1, c :: cs => tokens (loc.after c) owned cs
  | loc, 0, c :: cs =>
    match gap? c cs with
    | some width => tokens (loc.after c) width cs
    | none =>
      let (kind, width) := lexeme c cs
      ⟨kind, loc⟩ :: tokens (loc.after c) width cs

end Scan

/-- The tokens of a source, the end of the file included. -/
def Token.scan (source : String) : List Token :=
  Scan.tokens .start 0 source.toList

end Ember
