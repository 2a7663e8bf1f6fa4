/-!
# Paths

Paths as texts with slashes. A path is printed as it was given; its parts are found without looking at any disk.
-/

namespace Ember.Path

/-- Splits a text at every occurrence of a character. -/
def splitChars (separator : Char) : List Char → List (List Char)
  | [] => [[]]
  | c :: cs =>
    if c = separator then [] :: splitChars separator cs
    else
      match splitChars separator cs with
      | [] => [[c]]
      | part :: rest => (c :: part) :: rest

/-- The parts of a path between its slashes. -/
def parts (path : String) : List String :=
  (splitChars '/' path.toList).map String.ofList

/-- A part that names nothing: an empty one, or a single dot. -/
def isIdle (part : String) : Bool :=
  part == "" || part == "."

/-- The parts before the file name, and the file name: the last part that names something, unless it leads upwards. -/
def splitFile? (path : String) : Option (List String × String) :=
  match (parts path).reverse.dropWhile isIdle with
  | [] => none
  | name :: before => if name == ".." then none else some (before.reverse, name)

/-- A file name without its extension: what stands before its last dot. A name without a dot, or whose only dot is its first
character, has no extension. -/
def stemOf (name : String) : String :=
  match (splitChars '.' name.toList).reverse with
  | _ :: part :: before =>
    let stem := ['.'].intercalate (part :: before).reverse
    if stem.isEmpty then name else String.ofList stem
  | _ => name

/-- The file name of a path without its extension. -/
def stem? (path : String) : Option String :=
  (splitFile? path).map fun (_, name) => stemOf name

/-- The path with the extension of its file name replaced. A path without a file name stays as it is. -/
def withExtension (path extension : String) : String :=
  match splitFile? path with
  | none => path
  | some (before, name) => "/".intercalate (before ++ [stemOf name ++ "." ++ extension])

end Ember.Path
