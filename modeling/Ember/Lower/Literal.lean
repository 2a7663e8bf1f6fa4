import Ember.Tree.Node
import Ember.Typing.Operation

/-!
# Literals

The operands of literals, and how a number that was written takes the type of its context.
-/

namespace Ember

/-- The operand of a literal; another form has none. An integer is an `i32` if it fits, else an `i64`. -/
def Form.literal? {α : Type} : Form α → Option Operand
  | .integer n =>
    let type : Primitive := if IR.Ty.wrap .i32 n = n then .i32 else .i64
    some (.literal (TypeTable.primitive type) (.int n))
  | .floating x => some (.literal (TypeTable.primitive .f64) (.float x))
  | .boolean b => some { type := TypeTable.primitive .bool, value := .constant (.bool b) }
  | .string s forC =>
    some { type := TypeTable.primitive (if forC then .cstring else .string), value := .constant (.string s) }
  | .character code true =>
    some { type := TypeTable.primitive .bchar, value := .int (IR.Ty.wrap .i8 (Int64.ofNat code)) }
  | .character code false =>
    some { type := TypeTable.primitive .char, value := .int (IR.Ty.wrap .i32 (Int64.ofNat code)) }
  | .nothing => some { type := TypeTable.primitive .void, value := .unit }
  | _ => none

/-- Whether an integer is a value of a kind with a representation. -/
def TypeKind.holds (k : TypeKind) (ir : IR.Ty) (n : Int64) : Bool :=
  if k = .primitive .byte then 0 ≤ n && n ≤ 255 else ir.wrap n == n

/-- The constant of a literal at another kind: an integer that is one of its values, or a floating-point number rounded to
it. -/
def TypeKind.adapt? (k : TypeKind) (ir : IR.Ty) : IR.Value → Option IR.Constant
  | .constant (.int n) => if k.isIntegral && k.holds ir n then some (.int (ir.wrap n)) else none
  | .constant (.float x) => if k.isFloating then some (ir.floating x) else none
  | _ => none

namespace Lowering

/-- A literal takes the type of its context if it has a value there; all else keeps its own. -/
def adapt (x : Operand) (target : TypeId) : Lowering Operand := do
  if !x.isLiteral then return x
  let target ← immutableOf target
  let t ← typesWith [target]
  match (t.kind target).adapt? (t.ir target) x.value with
  | some c => return .literal target c
  | none => return x

/-- The width of the representation of an operand. -/
def widthOf (x : Operand) : Lowering Nat :=
  return (← irOf x.type).bits

/-- Lets literals of a pair of operands take the type of the other; of two literals, the one of smaller width changes. -/
def adaptPair (l r : Operand) : Lowering (Operand × Operand) := do
  match l.isLiteral, r.isLiteral with
  | false, false => return (l, r)
  | true, false => return (← adapt l r.type, r)
  | false, true => return (l, ← adapt r l.type)
  | true, true =>
    if (← widthOf l) < (← widthOf r) then return (← adapt l r.type, r)
    else return (l, ← adapt r l.type)

/-- Fits a value to the type of the place it goes to. -/
def coerce (x : Operand) (target : TypeId) (loc : Loc) : Lowering Operand := do
  let x ← adapt x target
  if !(← typesWith [x.type, target]).accepts x.type target then mismatch (.type (← nameOf target)) x.type loc
  cast .implicit x target loc

/-- The names of types cannot be given another meaning. -/
def checkNotReserved (name : String) (loc : Loc) : Lowering Unit := do
  if 0 < (← types).count name then throw (.redefined name loc)

/-- Values of a type must have a size to be stored. -/
def checkSized (type : TypeId) (loc : Loc) : Lowering Unit := do
  if !(← typesWith [type]).isSized type then throw (.unsized (← nameOf type) loc)

end Lowering

end Ember
