import Ember.C.Unit
import Ember.Compile
import Ember.IR.Print
import Ember.Project.Disk
import Ember.Project.Report
import Ember.Tree.Listing

/-!
# Jobs

A project is a list of files with options. Each file is a job of its own: what it makes is computed first and written
afterwards, and no job sees another.
-/

namespace Ember

/-- What is made of a file. -/
inductive Emission where
  | ir | tree | object
deriving DecidableEq, Repr

namespace Emission

/-- The extension of the file that is written. -/
def extension : Emission → String
  | .ir => "eir"
  | .tree => "ast"
  | .object => "o"

def ofText? : String → Option Emission
  | "ir" => some .ir
  | "ast" => some .tree
  | "obj" => some .object
  | _ => none

end Emission

/-- What a user asks for. -/
structure Options where
  inputs : List String := []
  emission : Emission := .ir
  level : Level := .none
  debugInfo : Bool := false
  /-- The file to write, instead of one beside the input. -/
  output : Option String := none
  /-- The file to which the report is written. -/
  report : Option String := none

/-- What is wrong with options. -/
inductive UsageFault where
  | noInputs
  | severalInputs
deriving DecidableEq, Repr

def UsageFault.message : UsageFault → String
  | .noInputs => "no input files"
  | .severalInputs => "-o cannot be used with more than one input file"

namespace Options

/-- Options must name a file, and one output only suits one file. -/
def check (o : Options) : Except UsageFault Unit := do
  if o.inputs.isEmpty then throw .noInputs
  if o.output.isSome && 1 < o.inputs.length then throw .severalInputs

/-- The file that is written for an input. -/
def artifactPath (o : Options) (input : String) : String :=
  o.output.getD (Path.withExtension input o.emission.extension)

end Options

/-- What a job makes: contents for a file, or text to print. -/
structure Product where
  functions : Nat := 0
  artifact : Option (String × Content) := none
  printed : String := ""

namespace Compilation

/-- Makes what the options ask for. -/
def product (file : SourceFile) (o : Options) : Compilation Product := do
  match o.emission with
  | .tree =>
    let listing := (← parse file).listing
    match o.output with
    | some path => return { artifact := some (path, .text listing) }
    | none => return { printed := listing }
  | .ir =>
    let m ← optimize file o.debugInfo o.level
    return { functions := m.functions.length, artifact := some (o.artifactPath file.path, .text m.text) }
  | .object =>
    let m ← optimize file o.debugInfo o.level
    let source ← ofExcept (m.toC o.debugInfo)
    return { functions := m.functions.length, artifact := some (o.artifactPath file.path, .object source) }

end Compilation

namespace FileReport

/-- A number at the right of five places. -/
def lineNumber (n : Nat) : String :=
  let digits := toString n
  String.ofList (List.replicate (5 - digits.length) ' ') ++ digits

/-- The lines that tell the user what stopped a file: the fault, and the line of the source in which it lies. -/
def faultLines (path : String) (f : Fault) (file : Option SourceFile) : List String :=
  match f.loc? with
  | none => [path ++ ": error[" ++ f.tag ++ "]: " ++ f.message]
  | some loc =>
    (path ++ ":" ++ loc.text ++ ": error[" ++ f.tag ++ "]: " ++ f.message) ::
      ((file.bind (·.lineText? loc.line)).map fun text => lineNumber loc.line ++ " | " ++ text).toList

/-- The report on a file that failed, and the journal that tells why. -/
def failed (path : String) (f : Fault) (file : Option SourceFile) (journal : Journal) : FileReport × Journal :=
  ({ path, diagnostics := journal.warnings.map .ofWarning ++ [.ofFault f] },
    journal ++ (faultLines path f file).map .failed)

/-- The report on a file that was compiled. -/
def compiled (path : String) (p : Product) (journal : Journal) : FileReport :=
  { path, diagnostics := journal.warnings.map .ofWarning, functions := p.functions, artifact := p.artifact.map (·.1) }

end FileReport

end Ember
