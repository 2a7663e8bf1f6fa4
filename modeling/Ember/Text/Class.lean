import Ember.Text.Class.Alphabetic
import Ember.Text.Class.Extending
import Ember.Text.Class.Numeric
import Ember.Text.Class.Unprintable

/-!
# Character classes

Which characters may spell a word, and which a reader can see. The first 128 characters are decided by their usual classes;
beyond them each class is a table of runs.
-/

namespace Ember.Text

/-- A code point is in a class when an odd number of the runs of the class end at or below it. -/
def withinRuns (runs : Array Nat) (point : Nat) : Bool :=
  (runs.foldl (fun (last, inside) width => (last + width, inside != decide (last + width ≤ point))) (0, false)).2

/-- Letters of every script, and the marks that spell with them. -/
def isAlphabetic (c : Char) : Bool :=
  if c.toNat < 128 then c.isAlpha else withinRuns alphabeticRuns c.toNat

/-- Digits and other numbers of every script. -/
def isNumeric (c : Char) : Bool :=
  if c.toNat < 128 then c.isDigit else withinRuns numericRuns c.toNat

/-- A word starts with a letter or an underscore. -/
def startsWord (c : Char) : Bool :=
  isAlphabetic c || c == '_'

/-- A word goes on with letters, numbers and underscores. -/
def continuesWord (c : Char) : Bool :=
  isAlphabetic c || isNumeric c || c == '_'

/-- A mark that joins the grapheme before it, and so cannot be shown alone. -/
def isExtending (c : Char) : Bool :=
  withinRuns extendingRuns c.toNat

/-- A character that shows as itself: no control, no separator but the blank, no filler, no unassigned code point. -/
def isPrintable (c : Char) : Bool :=
  if c.toNat < 128 then 0x20 ≤ c.toNat && c.toNat < 0x7f else !withinRuns unprintableRuns c.toNat

end Ember.Text
