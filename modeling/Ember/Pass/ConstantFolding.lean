import Ember.IR.Arithmetic
import Ember.Pass.Change

/-!
# Constant folding

An operation whose operands are all constants becomes a copy of its result.
-/

namespace Ember.IR

/-- The result of an operation on constants. -/
def Instruction.folded? : Instruction → Option Constant
  | .binary _ op type (.constant a) (.constant b) => op.result? type a b
  | .compare _ pred type (.constant a) (.constant b) => pred.result? type a b
  | .unary _ op type (.constant a) => op.result? type a
  | .cast _ op (.constant a) source target => op.result? a source target
  | _ => none

/-- An instruction that copies a value to the destination of another. -/
def Instruction.copying (i : Instruction) (value : Value) : Option Instruction :=
  i.dest?.map (.assign · value)

/-- Folds the operations on constants. -/
def Function.foldConstants (f : Function) : Bool × Function :=
  f.replaceBy fun i => i.folded?.bind fun c => i.copying (.constant c)

end Ember.IR
