import Ember.Text.Quoted

/-!
# JSON documents

JSON values, written with two spaces for each level.
-/

namespace Ember

/-- JSON values; the fields of an object keep their order. -/
inductive Document where
  | null
  | bool (b : Bool)
  | number (n : Nat)
  | string (s : String)
  | list (items : List Document)
  | object (fields : List (String × Document))

namespace Document

/-- A control character by its code, with four digits. -/
def unicodeEscape (code : Nat) : String :=
  let digits := String.ofList (Nat.toDigits 16 code)
  "\\u" ++ String.ofList (List.replicate (4 - digits.length) '0') ++ digits

/-- A character inside a string. -/
def escaped (c : Char) : String :=
  match c with
  | '"' => "\\\""
  | '\\' => "\\\\"
  | '\n' => "\\n"
  | '\r' => "\\r"
  | '\t' => "\\t"
  | c =>
    if c.toNat = 0x08 then "\\b"
    else if c.toNat = 0x0c then "\\f"
    else if c.toNat < 0x20 then unicodeEscape c.toNat
    else String.singleton c

def quoted (s : String) : String :=
  "\"" ++ String.join (s.toList.map escaped) ++ "\""

/-- The start of a line at a level. -/
def margin (level : Nat) : String :=
  String.ofList (List.replicate (2 * level) ' ')

/-- Items between brackets, each on a line of its own. -/
def bracketed (opening closing : String) (level : Nat) (items : List String) : String :=
  if items.isEmpty then opening ++ closing
  else
    opening ++ "\n" ++ ",\n".intercalate (items.map (margin (level + 1) ++ ·)) ++ "\n" ++ margin level ++ closing

mutual

/-- The text of a value at a level. -/
def textAt (level : Nat) : Document → String
  | .null => "null"
  | .bool b => toString b
  | .number n => toString n
  | .string s => quoted s
  | .list items => bracketed "[" "]" level (itemTexts (level + 1) items)
  | .object fields => bracketed "\x7b" "\x7d" level (fieldTexts (level + 1) fields)

/-- The texts of the items of a list. -/
def itemTexts (level : Nat) : List Document → List String
  | [] => []
  | d :: ds => textAt level d :: itemTexts level ds

/-- The texts of the fields of an object. -/
def fieldTexts (level : Nat) : List (String × Document) → List String
  | [] => []
  | (name, d) :: rest => (quoted name ++ ": " ++ textAt level d) :: fieldTexts level rest

end

/-- The text of a value. -/
def text (d : Document) : String :=
  textAt 0 d

end Document

end Ember
