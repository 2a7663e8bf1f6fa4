import Ember.Lower.Unit
import Ember.Pass.Pipeline
import Ember.Tree.Grammar
import Ember.Tree.Parse.Item

/-!
# Compiling a source file

The way from a source to an optimized module. Each stage writes to the journal, which can be read also if a stage fails.
-/

namespace Ember

/-- Stages of a compilation. -/
abbrev Compilation := EStateM Fault Journal

namespace Compilation

/-- Writes entries into the journal. -/
def noteAll (entries : Journal) : Compilation Unit :=
  modify (· ++ entries)

/-- Goes on with a result, or fails. -/
def ofExcept {α : Type} : Except Fault α → Compilation α
  | .ok a => return a
  | .error f => throw f

/-- The checked tree of a source file. -/
def parse (file : SourceFile) : Compilation Node := do
  noteAll [.parsing file.path]
  let n ← ofExcept (Node.parse file.contents)
  ofExcept n.check
  noteAll [.parsed file.path n.size]
  return n

/-- The module of a source file, as it was written. -/
def lower (file : SourceFile) (debugInfo : Bool) : Compilation IR.Module := do
  let n ← parse file
  let (lowered, journal) := n.lower file debugInfo
  noteAll journal
  ofExcept lowered

/-- The module of a source file, optimized. -/
def optimize (file : SourceFile) (debugInfo : Bool) (level : Level) : Compilation IR.Module := do
  let m ← lower file debugInfo
  let optimized := m.optimize level
  noteAll optimized.journal
  match optimized.fault with
  | some fault => throw fault
  | none => return optimized.module

end Compilation

/-- Runs a compilation: its result and its journal. -/
def Compilation.result {α : Type} (c : Compilation α) : Except Fault α × Journal :=
  match c.run [] with
  | .ok a journal => (.ok a, journal)
  | .error f journal => (.error f, journal)

end Ember
