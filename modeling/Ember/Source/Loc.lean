/-!
# Locations

Where a character, a token or a node stands in its source: a line and a column, both counted from one, in characters.
-/

namespace Ember

/-- A line and a column. -/
structure Loc where
  line : Nat
  column : Nat
deriving DecidableEq, Repr, Inhabited

namespace Loc

/-- The first character of a source. -/
def start : Loc := ⟨1, 1⟩

/-- The place of things that were not written in any source. -/
def unknown : Loc := ⟨0, 0⟩

/-- The place after a character. -/
def after (loc : Loc) (c : Char) : Loc :=
  if c = '\n' then ⟨loc.line + 1, 1⟩ else ⟨loc.line, loc.column + 1⟩

/-- A location as messages write it. -/
def text (loc : Loc) : String :=
  toString loc.line ++ ":" ++ toString loc.column

end Loc

end Ember
