import Ember.Pass.Change
import Std.Data.TreeSet

/-!
# Dead instructions

An instruction without an effect is removed if nothing uses its result. What only the removed ones used goes with the next
sweep.
-/

namespace Ember.IR

/-- Sets of registers. -/
abbrev Registers := Std.TreeSet Register

namespace Function

/-- The registers that some operand names. -/
def usedRegisters (f : Function) : Registers :=
  f.operands.foldl (fun used v =>
    match v with
    | .register r => used.insert r
    | _ => used) ∅

/-- Whether an instruction is needed when these registers are used. -/
def isLive (used : Registers) (i : Instruction) : Bool :=
  match i.dest? with
  | some dest => i.hasEffect || used.contains dest
  | none => true

/-- Removes the instructions that are not needed. -/
def sweep (f : Function) : Function :=
  let used := f.usedRegisters
  f.filterInstructions (isLive used)

/-- Sweeps until nothing is removed, at most `fuel` times. -/
def sweepWithin : (fuel : Nat) → Function → Function
  | 0, f => f
  | fuel + 1, f =>
    let swept := f.sweep
    if swept.instructionCount = f.instructionCount then f else sweepWithin fuel swept

/-- Removes dead instructions. Every sweep but the last removes one, so their number bounds the sweeps. -/
def removeDead (f : Function) : Bool × Function :=
  (f.sweep.instructionCount ≠ f.instructionCount, f.sweepWithin (f.instructionCount + 1))

end Function

end Ember.IR
