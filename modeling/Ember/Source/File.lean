import Ember.Source.Loc
import Ember.Source.Path

/-!
# Source files

A source file is a path and its contents. It names its module, and shows single lines to diagnostics.
-/

namespace Ember

/-- A path with the text found there. -/
structure SourceFile where
  path : String
  contents : String
deriving DecidableEq, Repr

namespace SourceFile

/-- The name of the module that a file holds: its file name without extension. -/
def stem (file : SourceFile) : String :=
  (Path.stem? file.path).getD "module"

/-- Splits a text after every line feed. -/
def splitLines : List Char → List Char → List (List Char)
  | [], [] => []
  | line, [] => [line.reverse]
  | line, c :: cs => if c = '\n' then ('\n' :: line).reverse :: splitLines [] cs else splitLines (c :: line) cs

/-- A line without its end: a line feed, or a carriage return and a line feed. -/
def chomp (line : List Char) : List Char :=
  match line.reverse with
  | '\n' :: '\r' :: rest => rest.reverse
  | '\n' :: rest => rest.reverse
  | _ => line

/-- The lines of a text. The end of the last line may be missing. -/
def lines (text : String) : List String :=
  (splitLines [] text.toList).map fun line => String.ofList (chomp line)

/-- The text of a line, counted from one. -/
def lineText? (file : SourceFile) (line : Nat) : Option String :=
  match line with
  | 0 => none
  | n + 1 => (lines file.contents)[n]?

end SourceFile

/-- The files of one run, in the order in which they were entered. -/
structure SourceSet where
  files : Array SourceFile := #[]

namespace SourceSet

/-- Enters a file and gives it the next number. -/
def enter (set : SourceSet) (file : SourceFile) : Nat × SourceSet :=
  (set.files.size, { set with files := set.files.push file })

/-- The number of files entered so far. -/
def size (set : SourceSet) : Nat :=
  set.files.size

end SourceSet

end Ember
