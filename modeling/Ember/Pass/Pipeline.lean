import Ember.IR.Check
import Ember.Pass.Catalog

/-!
# Pipelines

The passes of a level: some are repeated on every function until they find nothing to do, others run once on the module.
The module is checked before and after.
-/

namespace Ember

namespace Level

/-- The passes on functions, in order. -/
def functionPasses (l : Level) : List Pass :=
  (if 2 ≤ l.speed then [.storeForwarding, .deadSlotRemoval] else []) ++
    if 1 ≤ l.speed then
      [.constantFolding, .simplification, .copyPropagation, .branchSimplification, .unreachableRemoval, .blockMerging,
        .deadInstructionRemoval]
    else []

/-- The passes on the module, in order. -/
def modulePasses (l : Level) : List Pass :=
  [if l.speed < 2 then .alwaysInline else .inline, .unusedRemoval]

end Level

namespace Pass

/-- Runs passes on a function, one after the other: whether one found anything to do, the function, and what they note. -/
def runAll : List Pass → IR.Function → Bool × IR.Function × Journal
  | [], f => (false, f, [])
  | p :: rest, f =>
    let (changed, g) := p.onFunction f
    let (later, h, journal) := runAll rest g
    (changed || later, h, if changed then .functionChanged f.name p.name :: journal else journal)

/-- Runs passes on a function until they find nothing to do, at most `rounds` times. -/
def repeatAll (passes : List Pass) : (rounds : Nat) → IR.Function → IR.Function × Journal
  | 0, f => (f, [])
  | rounds + 1, f =>
    let (changed, g, journal) := runAll passes f
    if changed then
      let (h, later) := repeatAll passes rounds g
      (h, journal ++ later)
    else (g, journal)

/-- The rounds after which passes on a function are given up. -/
def roundLimit : Nat := 10

/-- Repeats passes on every function that has a body. -/
def onFunctions (passes : List Pass) (m : IR.Module) : IR.Module × Journal :=
  if passes.isEmpty then (m, [])
  else
    let results := m.functions.map fun f => if f.isDeclaration then (f, []) else repeatAll passes roundLimit f
    ({ m with functions := results.map (·.1) }, results.flatMap (·.2))

/-- Runs passes on a module, one after the other. -/
def onModuleInTurn (level : Level) : List Pass → IR.Module → IR.Module × Journal
  | [], m => (m, [])
  | p :: rest, m =>
    let (changed, m', journal) := p.onModule level m
    let (last, later) := onModuleInTurn level rest m'
    (last, journal ++ (if changed then [.moduleChanged m.name p.name] else []) ++ later)

end Pass

namespace IR.Module

/-- Runs the passes of a level. -/
def runPasses (m : Module) (level : Level) : Module × Journal :=
  let (m, first) := Pass.onFunctions level.functionPasses m
  let (m, second) := Pass.onModuleInTurn level level.modulePasses m
  let (m, third) := if 1 ≤ level.speed then Pass.onFunctions level.functionPasses m else (m, [])
  (m, first ++ second ++ third)

/-- A module after an attempt to optimize it. -/
structure Optimized where
  module : Module
  /-- What the check found wrong, before or after the passes. -/
  fault : Option Fault
  journal : Journal

/-- Optimizes a module. A module that fails the check is left as it is. -/
def optimize (m : Module) (level : Level) : Optimized :=
  match m.check with
  | .error fault => { module := m, fault := some fault, journal := [] }
  | .ok () =>
    let start : Event :=
      .optimizing m.name level.text (level.functionPasses.map (·.name)) (level.modulePasses.map (·.name))
    let (optimized, journal) := m.runPasses level
    let fault := match optimized.check with
      | .error fault => some fault
      | .ok () => none
    { module := optimized, fault, journal := start :: journal }

end IR.Module

end Ember
