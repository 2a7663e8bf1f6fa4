import Ember.Pass.ConstantFolding

/-!
# Algebraic simplification

Operations on integers whose result is known from one operand (`x + 0`, `x * 0`), or from both being the same register
(`x - x`). Booleans are left alone.
-/

namespace Ember.IR

/-- The operands of an operation, a lone constant of a commutative one to the right. -/
def BinaryOp.arranged (op : BinaryOp) (left right : Value) : Value × Value :=
  if op.isCommutative && left.int?.isSome && right.int?.isNone then (right, left) else (left, right)

/-- The result of an operation whose right operand is a constant. -/
def BinaryOp.simplifiedBy? (op : BinaryOp) (left : Value) (right : Int64) : Option Value :=
  match op with
  | .add | .sub | .or | .xor | .shl | .ashr | .lshr => if right = 0 then some left else none
  | .mul => if right = 1 then some left else if right = 0 then some (.int 0) else none
  | .sdiv | .udiv => if right = 1 then some left else none
  | .and => if right = 0 then some (.int 0) else none
  | .srem | .urem => if right = 1 then some (.int 0) else none
  | _ => none

/-- The result of an operation on a register and itself. -/
def BinaryOp.onItself? (op : BinaryOp) (x : Value) : Option Value :=
  match op with
  | .sub | .xor => some (.int 0)
  | .and | .or => some x
  | _ => none

/-- The result of an operation that needs no computing. -/
def BinaryOp.simplified? (op : BinaryOp) (left right : Value) : Option Value :=
  let (left, right) := op.arranged left right
  match right.int?.bind (op.simplifiedBy? left) with
  | some value => some value
  | none =>
    match left, right with
    | .register r, .register s => if r = s then op.onItself? left else none
    | _, _ => none

/-- The result of an instruction that needs no computing. -/
def Instruction.simplified? : Instruction → Option Value
  | .binary _ op type left right =>
    if type.isInteger && type ≠ .bool then op.simplified? left right else none
  | _ => none

/-- Simplifies operations on integers. -/
def Function.simplify (f : Function) : Bool × Function :=
  f.replaceBy fun i => i.simplified?.bind i.copying

end Ember.IR
