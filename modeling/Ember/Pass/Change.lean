import Ember.IR.Module

/-!
# Changing functions

The ways in which passes change a function: by rules for single instructions, and by putting values in the place of
registers. Each tells whether it found anything to change.
-/

namespace Ember.IR

namespace Function

/-- Changes every block. -/
def mapBlocks (f : Function) (change : Block → Block) : Function :=
  { f with blocks := f.blocks.map change }

/-- Puts what a rule gives in the place of every instruction to which it applies. -/
def replaceBy (rule : Instruction → Option Instruction) (f : Function) : Bool × Function :=
  (f.instructions.any fun i => (rule i).isSome, f.mapBlocks (·.mapInstructions fun i => (rule i).getD i))

/-- The value that stands for an operand after a substitution. -/
def substituted (subst : Register → Option Value) (v : Value) : Value :=
  (v.register?.bind subst).getD v

/-- Puts values in the place of the registers that a substitution names. -/
def substitute (subst : Register → Option Value) (f : Function) : Bool × Function :=
  (f.operands.any fun v => (v.register?.bind subst).isSome, f.mapBlocks (·.mapOperands (substituted subst)))

/-- Keeps the instructions that a test accepts. -/
def filterInstructions (f : Function) (keep : Instruction → Bool) : Function :=
  f.mapBlocks fun b => { b with instructions := b.instructions.filter keep }

/-- The number of instructions, terminators not included. -/
def instructionCount (f : Function) : Nat :=
  f.blocks.foldr (fun b n => b.instructions.length + n) 0

/-- Renames the source of the phi edges of one block. -/
def renamePhiSource (f : Function) (target old new : BlockId) : Function :=
  f.modifyBlock target (·.mapInstructions (·.mapIncoming fun incoming =>
    incoming.map fun (value, source) => (value, if source = old then new else source)))

end Function

end Ember.IR
