import Ember.Pass.CopyPropagation
import Ember.Pass.Flow
import Ember.Pass.Inlining
import Ember.Pass.Level
import Ember.Pass.Simplification
import Ember.Pass.Slot

/-!
# The catalog of passes

Every pass by its name. Most passes work on one function at a time; the inliners and the removal of unused declarations
work on a whole module.
-/

namespace Ember

/-- Optimization passes. -/
inductive Pass where
  | constantFolding
  | simplification
  | copyPropagation
  | branchSimplification
  | unreachableRemoval
  | blockMerging
  | deadInstructionRemoval
  | storeForwarding
  | deadSlotRemoval
  | alwaysInline
  | inline
  | unusedRemoval
deriving DecidableEq, Repr

namespace Pass

def all : List Pass :=
  [.constantFolding, .simplification, .copyPropagation, .branchSimplification, .unreachableRemoval, .blockMerging,
    .deadInstructionRemoval, .storeForwarding, .deadSlotRemoval, .alwaysInline, .inline, .unusedRemoval]

def name : Pass → String
  | .constantFolding => "constant-folding"
  | .simplification => "algebraic-simplification"
  | .copyPropagation => "copy-propagation"
  | .branchSimplification => "simplify-branches"
  | .unreachableRemoval => "unreachable-block-elimination"
  | .blockMerging => "block-merging"
  | .deadInstructionRemoval => "dead-instruction-elimination"
  | .storeForwarding => "store-to-load-forwarding"
  | .deadSlotRemoval => "dead-slot-elimination"
  | .alwaysInline => "always-inline"
  | .inline => "inline"
  | .unusedRemoval => "unused-declaration-elimination"

def ofName? (name : String) : Option Pass :=
  all.find? (·.name == name)

/-- What a pass does to one function, and whether it found anything to do. -/
def onFunction (p : Pass) (f : IR.Function) : Bool × IR.Function :=
  match p with
  | .constantFolding => f.foldConstants
  | .simplification => f.simplify
  | .copyPropagation => f.propagateCopies
  | .branchSimplification => f.simplifyBranches
  | .unreachableRemoval => f.removeUnreachable
  | .blockMerging => f.mergeBlocks
  | .deadInstructionRemoval => f.removeDead
  | .storeForwarding => f.forwardStores
  | .deadSlotRemoval => f.removeDeadSlots
  | .alwaysInline | .inline | .unusedRemoval => (false, f)

/-- What a pass does to a function that may be only declared. -/
def onDefined (p : Pass) (f : IR.Function) : Bool × IR.Function :=
  if f.isDeclaration then (false, f) else p.onFunction f

/-- What a pass does to a module: whether it found anything to do, the module, and what it notes. -/
def onModule (p : Pass) (level : Level) (m : IR.Module) : Bool × IR.Module × Journal :=
  match p with
  | .alwaysInline =>
    let (m, journal) := m.inlineCalls (·.alwaysInline)
    (!journal.isEmpty, m, journal)
  | .inline =>
    let (m, journal) := m.inlineCalls fun f => f.alwaysInline || f.size ≤ level.inlineBudget
    (!journal.isEmpty, m, journal)
  | .unusedRemoval =>
    let (changed, m) := m.removeUnused
    (changed, m, [])
  | p =>
    let results := m.functions.map p.onDefined
    (results.any (·.1), { m with functions := results.map (·.2) }, [])

end Pass

end Ember
