import Ember.Source.Loc

/-!
# The journal of a compilation

What a compilation says while it goes on: warnings, which the user should read, and notes of its steps, which only help to
follow it. All of them stand in one journal, in the order in which they were written.
-/

namespace Ember

/-- Levels of detail, the most severe first. -/
inductive Detail where
  | error | warn | debug | trace
deriving DecidableEq, Repr

namespace Detail

/-- The place among the levels. -/
def rank : Detail → Nat
  | .error => 0
  | .warn => 1
  | .debug => 2
  | .trace => 3

def text : Detail → String
  | .error => "error"
  | .warn => "warn"
  | .debug => "debug"
  | .trace => "trace"

def ofText? : String → Option Detail
  | "error" => some .error
  | "warn" => some .warn
  | "debug" => some .debug
  | "trace" => some .trace
  | _ => none

end Detail

/-- What a warning is about. -/
inductive Caution where
  | unreachableCode
  | uninitialized (name : String)
  | useless (name : String)
deriving DecidableEq, Repr

/-- A warning at a place of the source. -/
structure Warning where
  caution : Caution
  loc : Loc
deriving DecidableEq, Repr

namespace Warning

/-- The name of the kind of warning. -/
def tag (w : Warning) : String :=
  match w.caution with
  | .unreachableCode => "UnreachableCode"
  | .uninitialized _ => "UninitializedVariable"
  | .useless _ => "UselessBinding"

/-- What the user reads. -/
def message (w : Warning) : String :=
  match w.caution with
  | .unreachableCode => "statement is never executed"
  | .uninitialized name => "`" ++ name ++ "` is used before being assigned a value"
  | .useless name => "immutable `" ++ name ++ "` has no initializer"

end Warning

/-- Entries of the journal. -/
inductive Event where
  | parsing (path : String)
  | parsed (path : String) (nodes : Nat)
  | imported (target : String) (loc : Loc)
  | declared (name type : String)
  | warned (w : Warning)
  | optimizing (module level : String) (functionPasses modulePasses : List String)
  | functionChanged (function pass : String)
  | inlined (callee caller : String)
  | moduleChanged (module pass : String)
  /-- A line about what stopped the compilation of a file. -/
  | failed (line : String)
deriving DecidableEq, Repr

namespace Event

def detail : Event → Detail
  | .parsing _ | .imported .. | .optimizing .. => .debug
  | .warned _ => .warn
  | .failed _ => .error
  | _ => .trace

def message : Event → String
  | .parsing path => "parsing " ++ path
  | .parsed path nodes => path ++ ": " ++ toString nodes ++ " nodes"
  | .imported target loc => loc.text ++ ": import " ++ target
  | .declared name type => "declared " ++ name ++ ": " ++ type
  | .warned w => w.loc.text ++ ": warning[" ++ w.tag ++ "]: " ++ w.message
  | .optimizing module level functionPasses modulePasses =>
    "optimizing " ++ module ++ " at " ++ level ++ ": [" ++ ", ".intercalate functionPasses ++ "] then [" ++
      ", ".intercalate modulePasses ++ "]"
  | .functionChanged function pass => function ++ ": " ++ pass ++ " changed"
  | .inlined callee caller => "inlined " ++ callee ++ " into " ++ caller
  | .moduleChanged module pass => module ++ ": " ++ pass ++ " changed the module"
  | .failed line => line

/-- The line of an entry: its level and what it says. -/
def line (e : Event) : String :=
  e.detail.text ++ " " ++ e.message

end Event

/-- A journal, the first entry first. -/
abbrev Journal := List Event

namespace Journal

/-- The warnings of a journal. -/
def warnings (j : Journal) : List Warning :=
  j.filterMap fun
    | .warned w => some w
    | _ => none

/-- The lines that are at least as severe as a level. -/
def lines (j : Journal) (level : Detail) : List String :=
  (j.filter fun e => e.detail.rank ≤ level.rank).map (·.line)

end Journal

end Ember
