import Ember.Text.Class

/-!
# Quoted text

Texts and characters as messages show them: between quotes, with every character that would not show as itself written as
an escape.
-/

namespace Ember.Text

/-- The hexadecimal digits of a number, in lower case and without leading zeros. -/
def hexadecimal (n : Nat) : String :=
  String.ofList (Nat.toDigits 16 n)

/-- A character by its number: `\u` and the hexadecimal digits in braces. -/
def numbered (c : Char) : String :=
  "\\u\x7b" ++ hexadecimal c.toNat ++ "\x7d"

/-- One character inside quotes of the given kind. -/
def escaped (quote : Char) (c : Char) : String :=
  match c with
  | '\x00' => "\\0"
  | '\t' => "\\t"
  | '\r' => "\\r"
  | '\n' => "\\n"
  | '\\' => "\\\\"
  | c =>
    if c == quote then "\\" ++ c.toString
    else if isExtending c then numbered c
    else if isPrintable c then c.toString
    else numbered c

/-- A text between double quotes. -/
def quoted (s : String) : String :=
  "\"" ++ String.join (s.toList.map (escaped '"')) ++ "\""

/-- A character between single quotes. -/
def quotedChar (c : Char) : String :=
  "'" ++ escaped '\'' c ++ "'"

end Ember.Text
