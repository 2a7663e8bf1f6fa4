import Ember.IR.Arithmetic
import Ember.Typing.Cast
import Ember.Workspace

/-!
# Operations of types

What an operator means depends on the family of the type of its first operand. Operands are lowered before the operator is
applied to them, so no operator skips one.
-/

namespace Ember

namespace Lowering

/-- Reads a place; another operand stays as it is. -/
def read (x : Operand) : Lowering Operand := do
  if !x.isPlace then return x
  let type ← immutableOf x.type
  let value ← build (.load (← irOf type) x.value)
  return { type, value }

/-- A comparison with zero, folded if the value is a constant. -/
def notZero (value : IR.Value) (type : IR.Ty) : Lowering IR.Value := do
  let (pred, zero) : IR.Predicate × IR.Constant := if type.isFloat then (.une, .float .zero) else (.ne, .int 0)
  match value.constant?.bind fun c => pred.result? type c zero with
  | some folded => return .constant folded
  | none => build (.compare pred type value (.constant zero))

/-- A conversion, folded if the value is a constant. -/
def convert (op : IR.CastOp) (value : IR.Value) (source target : IR.Ty) : Lowering IR.Value := do
  match value with
  | .constant c =>
    match op.result? c source target with
    | some folded => return .constant folded
    | none => breach (.unfoldable op c)
  | _ => build (.cast op value source target)

/-- Converts a value to a type, if the mode allows it. -/
def cast (mode : CastMode) (x : Operand) (target : TypeId) (loc : Loc) : Lowering Operand := do
  let t ← typesWith [x.type, target]
  match t.plan? x.type target mode with
  | none => mismatch (.type (t.nameOf target)) x.type loc
  | some .identity => return x
  | some .retag => return { type := target, value := x.value }
  | some (.convert op) => return { type := target, value := ← convert op x.value (t.ir x.type) (t.ir target) }
  | some .notZero => return { type := target, value := ← notZero x.value (t.ir x.type) }

/-- Two operands must have types that are alike; theirs is the plain type of the first. -/
def commonType (l r : Operand) (loc : Loc) : Lowering TypeId := do
  if !(← typesWith [l.type, r.type]).alike l.type r.type then mismatch (.type (← nameOf l.type)) r.type loc
  immutableOf l.type

/-- Compares two values of a type. -/
def compareAt (pred : IR.Predicate) (type : TypeId) (l r : Operand) : Lowering Operand := do
  let value ← build (.compare pred (← irOf type) l.value r.value)
  return { type := TypeTable.primitive .bool, value }

/-- Combines two values of a type. -/
def combineAt (op : IR.BinaryOp) (type : TypeId) (l r : Operand) : Lowering Operand := do
  let value ← build (.binary op (← irOf type) l.value r.value)
  return { type, value }

end Lowering

namespace Operator

/-- The comparison of integers. -/
def integerPredicate? (op : Operator) (unsigned : Bool) : Option IR.Predicate :=
  match op with
  | .eq => some .eq
  | .ne => some .ne
  | .lt => some (if unsigned then .ult else .slt)
  | .le => some (if unsigned then .ule else .sle)
  | .gt => some (if unsigned then .ugt else .sgt)
  | .ge => some (if unsigned then .uge else .sge)
  | _ => none

/-- The operation on integers. -/
def integerBinary? (op : Operator) (unsigned : Bool) : Option IR.BinaryOp :=
  match op with
  | .add => some .add
  | .sub => some .sub
  | .mul => some .mul
  | .div => some (if unsigned then .udiv else .sdiv)
  | .mod => some (if unsigned then .urem else .srem)
  | .bitAnd => some .and
  | .bitOr => some .or
  | .bitXor => some .xor
  | .shl => some .shl
  | .shr => some (if unsigned then .lshr else .ashr)
  | _ => none

/-- The comparison of floating-point numbers. -/
def floatPredicate? : Operator → Option IR.Predicate
  | .eq => some .oeq
  | .ne => some .one
  | .lt => some .olt
  | .le => some .ole
  | .gt => some .ogt
  | .ge => some .oge
  | _ => none

/-- The operation on floating-point numbers. -/
def floatBinary? : Operator → Option IR.BinaryOp
  | .add => some .fadd
  | .sub => some .fsub
  | .mul => some .fmul
  | .div => some .fdiv
  | .mod => some .frem
  | _ => none

/-- The comparison of booleans. -/
def boolPredicate? : Operator → Option IR.Predicate
  | .eq => some .eq
  | .ne => some .ne
  | _ => none

/-- The operation on booleans. Both sides of `&&` and `||` are always computed. -/
def boolBinary? : Operator → Option IR.BinaryOp
  | .bitAnd | .logicalAnd => some .and
  | .bitOr | .logicalOr => some .or
  | .bitXor => some .xor
  | _ => none

end Operator

/-- Families of types that share their operations. -/
inductive Family where
  | integral | floating | boolean
  /-- Characters are only compared. -/
  | character
  /-- Functions are only called. -/
  | callable
  /-- Types whose values are only assigned. -/
  | bare
deriving DecidableEq, Repr

def TypeKind.family (k : TypeKind) : Family :=
  if k.isIntegral then .integral
  else if k.isFloating then .floating
  else if k.isCharacter then .character
  else if k.isBool then .boolean
  else if k = .function then .callable
  else .bare

namespace Family

open Lowering

/-- Applies an operator to one operand. -/
def unary (family : Family) (op : Operator) (x : Operand) (loc : Loc) : Lowering Operand := do
  match family with
  | .integral =>
    let x ← read x
    let type ← immutableOf x.type
    match op with
    | .unaryPlus => cast .explicit x (TypeTable.primitive .int) loc
    | .unaryMinus => return { type, value := ← build (.negate (← irOf type) x.value) }
    | .bitNot => return { type, value := ← build (.complement (← irOf type) x.value) }
    | .logicalNot =>
      let value ← build (.compare .eq (← irOf type) x.value (.int 0))
      return { type := TypeTable.primitive .bool, value }
    | _ => unsupported op type loc
  | .floating =>
    let x ← read x
    let type ← immutableOf x.type
    match op with
    | .unaryMinus => return { type, value := ← build (.negate (← irOf type) x.value) }
    | _ => unsupported op type loc
  | .boolean =>
    let x ← read x
    let type := TypeTable.primitive .bool
    match op with
    | .logicalNot => return { type, value := ← build (.complement .bool x.value) }
    | _ => unsupported op type loc
  | _ => unsupported op x.type loc

/-- Applies an operator to two operands. -/
def binary (family : Family) (op : Operator) (l r : Operand) (loc : Loc) : Lowering Operand := do
  match family with
  | .integral =>
    let type ← commonType l r loc
    let unsigned := (← kindOf type).isUnsigned
    match op.integerPredicate? unsigned, op.integerBinary? unsigned with
    | some pred, _ => compareAt pred type l r
    | none, some combine => combineAt combine type l r
    | none, none => unsupported op type loc
  | .floating =>
    let type ← commonType l r loc
    match op.floatPredicate?, op.floatBinary? with
    | some pred, _ => compareAt pred type l r
    | none, some combine => combineAt combine type l r
    | none, none => unsupported op type loc
  | .boolean =>
    let type ← commonType l r loc
    match op.boolPredicate?, op.boolBinary? with
    | some pred, _ => compareAt pred type l r
    | none, some combine =>
      let value ← build (.binary combine .bool l.value r.value)
      return { type, value }
    | none, none => unsupported op type loc
  | .character =>
    match op.integerPredicate? true with
    | none => unsupported op l.type loc
    | some pred => compareAt pred (← commonType l r loc) l r
  | _ => unsupported op l.type loc

/-- A name without any `mut` before it. -/
def withoutMut : List Char → List Char
  | 'm' :: 'u' :: 't' :: ' ' :: rest => withoutMut rest
  | cs => cs

/-- Stores a value in a place, or, for a compound operator, the place's value combined with it. The place is read after
the value was computed. -/
def assign (family : Family) (op : Operator) (target value : Operand) (loc : Loc) : Lowering Operand := do
  if !target.isPlace || !target.mutable then
    let name ← nameOf target.type
    mismatch (.type ("mut " ++ String.ofList (withoutMut name.toList))) target.type loc
  let type ← immutableOf target.type
  let stored ← do
    if op = .assign then read value
    else
      match op.compoundBase? with
      | none => unsupported op target.type loc
      | some base =>
        let current ← read target
        let value ← read value
        binary family base current value loc
  if !(← typesWith [stored.type, type]).accepts stored.type type then mismatch (.type (← nameOf type)) stored.type loc
  let stored ← cast .implicit stored type loc
  build (.store (← irOf type) stored.value target.value)
  return stored

/-- Passes an argument to a parameter, counted from one: its address to a `ref`, else its value. -/
def argument (arg : Operand) (param : TypeId) (mode : PassMode) (position : Nat) (loc : Loc) : Lowering IR.Value := do
  if mode = .ref then
    if !arg.isPlace || !arg.mutable || !(← typesWith [arg.type, param]).alike arg.type param then
      mismatch (.argument (some mode) (← nameOf param) position) arg.type loc
    return arg.value
  let arg ← read arg
  if !(← typesWith [arg.type, param]).accepts arg.type param then
    mismatch (.argument none (← nameOf param) position) arg.type loc
  return (← cast .implicit arg param loc).value

/-- Passes the arguments one after the other. -/
def arguments (loc : Loc) : (position : Nat) → List Operand → List (TypeId × PassMode) → Lowering (List IR.Value)
  | position, arg :: args, (param, mode) :: params => do
    let value ← argument arg param mode position loc
    return value :: (← arguments loc (position + 1) args params)
  | _, _, _ => return []

/-- Calls a function. -/
def call (callee : Operand) (args : List Operand) (loc : Loc) : Lowering Operand := do
  match callee.value with
  | .function name =>
    match ((← typesWith [callee.type]).entry callee.type).signature? with
    | none => breach (.noSignature (← nameOf callee.type))
    | some signature =>
      if args.length ≠ signature.params.length then
        throw (.mismatch (.arguments signature.params.length name) (.arguments args.length) loc)
      let values ← arguments loc 1 args signature.params
      let value ← build (.call name values (← irOf signature.ret))
      return { type := ← immutableOf signature.ret, value }
  | _ => mismatch .function callee.type loc

/-- Applies an operator to any number of operands. -/
def nary (family : Family) (op : Operator) (operands : List Operand) (loc : Loc) : Lowering Operand := do
  match family, operands with
  | .callable, [] => breach .noCallee
  | .callable, callee :: args => if op = .call then call callee args loc else unsupported op callee.type loc
  | _, [] => breach .noOperands
  | _, x :: _ => unsupported op x.type loc

/-- Applies an operator to operands of which there must be one. -/
def unaryOn (family : Family) (op : Operator) (operands : List Operand) (loc : Loc) : Lowering Operand :=
  match operands with
  | [x] => family.unary op x loc
  | _ => breach (.operandCount 1 operands.length)

/-- Applies an operator to operands of which there must be two. -/
def binaryOn (family : Family) (op : Operator) (operands : List Operand) (loc : Loc) : Lowering Operand :=
  match operands with
  | [l, r] => family.binary op l r loc
  | _ => breach (.operandCount 2 operands.length)

/-- Assigns with operands of which there must be two. -/
def assignOn (family : Family) (op : Operator) (operands : List Operand) (loc : Loc) : Lowering Operand :=
  match operands with
  | [target, value] => family.assign op target value loc
  | _ => breach (.operandCount 2 operands.length)

end Family

end Ember
