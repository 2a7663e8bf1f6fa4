import Ember.Number.Reading

/-!
# Names and texts in C

A text becomes a C string of its bytes; those that are not plain ASCII are written in octal, always with three digits, so
that no digit behind them is taken for a part of them.
-/

namespace Ember.C

/-- Three octal digits. -/
def octal (byte : Nat) : List Char :=
  [Nat.digitChar (byte / 64), Nat.digitChar (byte / 8 % 8), Nat.digitChar (byte % 8)]

/-- A byte inside a string. -/
def escapedByte (byte : UInt8) : List Char :=
  if byte = '"'.toUInt8 then ['\\', '"']
  else if byte = '\\'.toUInt8 then ['\\', '\\']
  else if byte = '\n'.toUInt8 then ['\\', 'n']
  else if byte = '\t'.toUInt8 then ['\\', 't']
  else if 0x20 ≤ byte && byte ≤ 0x7e then [Char.ofNat byte.toNat]
  else '\\' :: octal byte.toNat

/-- A text as a C string. -/
def quoted (s : String) : String :=
  String.ofList ('"' :: s.toUTF8.toList.flatMap escapedByte ++ ['"'])

/-- A name with an underscore for every character that C does not allow in one. -/
def safeName (name : String) : String :=
  String.ofList (name.toList.map fun c => if c.isAlphanum || c = '_' then c else '_')

end Ember.C
