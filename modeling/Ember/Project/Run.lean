import Ember.Project.Job

/-!
# Running a project

All inputs are read before the first one is compiled. A file that fails does not stop the others.
-/

namespace Ember

/-- A disk during the run of a project, with what was printed and noted so far. -/
structure Run where
  disk : Disk
  printed : String := ""
  journal : Journal := []
  /-- The reports on the files that are done, the first one first. -/
  reports : List FileReport := []

namespace Run

/-- Adds the report on a file. -/
def record (r : Run) (outcome : FileReport × Journal) : Run :=
  { r with reports := r.reports ++ [outcome.1], journal := r.journal ++ outcome.2 }

/-- Writes what a job made. -/
def deliver (r : Run) (p : Product) : Except Fault Run :=
  let r := { r with printed := r.printed ++ p.printed }
  match p.artifact with
  | none => .ok r
  | some (path, content) =>
    match r.disk.write path content with
    | .ok disk => .ok { r with disk }
    | .error failure => .error (.access path failure)

/-- Compiles a file and writes what it makes. -/
def compile (o : Options) (r : Run) (file : SourceFile) : Run :=
  match (Compilation.product file o).result with
  | (.error fault, journal) => r.record (FileReport.failed file.path fault (some file) journal)
  | (.ok p, journal) =>
    match r.deliver p with
    | .error fault => r.record (FileReport.failed file.path fault (some file) journal)
    | .ok r => r.record (FileReport.compiled file.path p journal, journal)

/-- Does the job of an input, which may not have been readable. -/
def job (o : Options) (r : Run) : String × Except AccessFailure String → Run
  | (path, .ok contents) => r.compile o ⟨path, contents⟩
  | (path, .error failure) => r.record (FileReport.failed path (.access path failure) none [])

end Run

/-- Compiles the inputs of a project. -/
def Disk.compile (d : Disk) (o : Options) : Run :=
  (o.inputs.map fun path => (path, d.read path)).foldl (Run.job o) { disk := d }

/-- Compiles the inputs of a project and writes the report, if that is asked for. -/
def Disk.build (d : Disk) (o : Options) : Run × Except Fault Report :=
  let r := d.compile o
  let report : Report := ⟨r.reports⟩
  match o.report with
  | none => (r, .ok report)
  | some path =>
    match r.disk.write path (.text report.text) with
    | .ok disk => ({ r with disk }, .ok report)
    | .error failure => (r, .error (.access path failure))

end Ember
