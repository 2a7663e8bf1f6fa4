import Ember.Project.Arguments

/-!
# The command

Compiles the files that the command line names. Files are read and written here; everything else is decided elsewhere. No
object files are made, because that takes a C compiler.
-/

namespace Ember

/-- Why a file could not be read or written. -/
def AccessFailure.ofError : IO.Error → AccessFailure
  | .noFileOrDirectory .. => .notFound
  | .inappropriateType _ code _ => if code = 20 then .notDirectory else .isDirectory
  | .invalidArgument _ 36 _ => .nameTooLong
  | _ => .notText

/-- Writes what a job made. -/
def Product.deliver (p : Product) : IO (Except Fault Unit) := do
  IO.print p.printed
  match p.artifact with
  | none => return .ok ()
  | some (path, content) =>
    match content.text? with
    | none => return .error .noCompiler
    | some text =>
      try
        IO.FS.writeFile path text
        return .ok ()
      catch e => return .error (.access path (.ofError e))

/-- Does the job of an input. -/
def Options.job (o : Options) (path : String) (contents : Except AccessFailure String) : IO (FileReport × Journal) := do
  match contents with
  | .error failure => return FileReport.failed path (.access path failure) none []
  | .ok contents =>
    let file : SourceFile := ⟨path, contents⟩
    match (Compilation.product file o).result with
    | (.error fault, journal) => return FileReport.failed path fault (some file) journal
    | (.ok p, journal) =>
      match ← p.deliver with
      | .error fault => return FileReport.failed path fault (some file) journal
      | .ok () => return (.compiled path p journal, journal)

/-- Reads an input. -/
def readInput (path : String) : IO (String × Except AccessFailure String) := do
  try
    return (path, .ok (← IO.FS.readFile path))
  catch e => return (path, .error (.ofError e))

/-- Does what a command line asks for; whether all files succeeded. -/
def Request.perform (r : Request) : IO Bool := do
  let inputs ← r.options.inputs.mapM readInput
  let mut reports := []
  for (path, contents) in inputs do
    let (report, journal) ← r.options.job path contents
    for line in journal.lines r.detail do
      IO.eprintln line
    reports := reports ++ [report]
  let report : Report := ⟨reports⟩
  if let some path := r.options.report then
    IO.FS.writeFile path report.text
  return report.success

end Ember

def main (args : List String) : IO UInt32 := do
  match Ember.Request.ofArguments args with
  | .error fault =>
    IO.eprintln ("error: " ++ fault.message)
    return 2
  | .ok r => return if ← r.perform then 0 else 1
