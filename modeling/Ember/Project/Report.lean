import Ember.Fault
import Ember.Journal
import Ember.Project.Document

/-!
# Reports

What became of every file of a project, for the user and for other programs.
-/

namespace Ember

/-- Something to tell about a file. -/
structure Diagnostic where
  tag : String
  isError : Bool
  message : String
  loc : Option Loc
deriving DecidableEq, Repr

namespace Diagnostic

def ofWarning (w : Warning) : Diagnostic :=
  { tag := w.tag, isError := false, message := w.message, loc := some w.loc }

def ofFault (f : Fault) : Diagnostic :=
  { tag := f.tag, isError := true, message := f.message, loc := f.loc? }

/-- The word for how bad it is. -/
def severity (d : Diagnostic) : String :=
  if d.isError then "error" else "warning"

def document (d : Diagnostic) : Document :=
  let place (part : Loc → Nat) : Document := match d.loc with
    | some loc => .number (part loc)
    | none => .null
  .object [("tag", .string d.tag), ("severity", .string d.severity), ("message", .string d.message),
    ("line", place (·.line)), ("column", place (·.column))]

end Diagnostic

/-- What became of a file. -/
structure FileReport where
  path : String
  diagnostics : List Diagnostic
  /-- The number of functions of the module; none if there is no module. -/
  functions : Nat := 0
  /-- The file that was written. -/
  artifact : Option String := none
deriving DecidableEq, Repr

namespace FileReport

/-- A file succeeds if there is no error to tell about it. -/
def success (r : FileReport) : Bool :=
  r.diagnostics.all fun d => !d.isError

def document (r : FileReport) : Document :=
  .object [("path", .string r.path), ("success", .bool r.success), ("diagnostics", .list (r.diagnostics.map (·.document))),
    ("functions", .number r.functions),
    ("artifact", match r.artifact with
      | some path => .string path
      | none => .null)]

end FileReport

/-- What became of a project. -/
structure Report where
  files : List FileReport
deriving DecidableEq, Repr

namespace Report

/-- A project succeeds if all of its files do. -/
def success (r : Report) : Bool :=
  r.files.all (·.success)

def document (r : Report) : Document :=
  .object [("success", .bool r.success), ("files", .list (r.files.map (·.document)))]

/-- The report as JSON. -/
def text (r : Report) : String :=
  r.document.text

end Report

end Ember
