import Ember.Machine.Step

/-!
# Running programs

A machine holds the memory of a module and runs its functions. Each step uses one unit of fuel, so every run ends.
-/

namespace Ember

/-- Runs a stack of frames with some fuel: the result, the memory, and the fuel that is left. -/
def IR.Module.run (m : IR.Module) : (fuel : Nat) → List Frame → Memory → Except Crash Datum × Memory × Nat
  | 0, _, memory => (.error .outOfFuel, memory, 0)
  | fuel + 1, stack, memory =>
    match m.step stack memory with
    | .ok (.running stack) memory => run m fuel stack memory
    | .ok (.finished result) memory => (.ok result, memory, fuel)
    | .error crash memory => (.error crash, memory, fuel)

/-- A module with its memory and the fuel that is left. -/
structure Machine where
  module : IR.Module
  memory : Memory
  fuel : Nat

namespace Machine

/-- The fuel of a machine that is given none. -/
def defaultFuel : Nat := 1000000

/-- A machine whose globals hold their initial values. -/
def ofModule (m : IR.Module) (fuel : Nat) : Machine :=
  { module := m, memory := (m.globals.map fun g => Datum.constant g.init).toArray, fuel }

/-- The contents of a global. -/
def global? (machine : Machine) (name : String) : Option Datum :=
  (machine.module.globalCell? name).bind (machine.memory[·]?)

/-- Calls a function. Memory and fuel carry over to the next call. -/
def call (machine : Machine) (name : String) (args : List Datum) : Except Crash Datum × Machine :=
  let ⟨m, memory, fuel⟩ := machine
  match m.enter name args none 0 memory with
  | .error crash memory => (.error crash, ⟨m, memory, fuel⟩)
  | .ok frame memory =>
    let (result, memory, fuel) := m.run fuel [frame] memory
    (result, ⟨m, memory, fuel⟩)

end Machine

end Ember
