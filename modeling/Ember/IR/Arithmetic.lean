import Ember.IR.Op
import Ember.IR.Value

/-!
# Operations on constants

What each operation gives on constants. The rules are stated once: whoever folds an operation, converts a literal or runs a
program asks here, so that all of them agree on wrapping, on signs and on rounding. An operation without a result (division
by zero, a shift by the width or more, an operand of the wrong sort) gives none.
-/

namespace Ember.IR

/-- The result of an integer operation of a type: a word wrapped to its width, or a boolean. -/
def Ty.integer (t : Ty) (n : Int64) : Constant :=
  if t = .bool then .bool (n &&& 1 != 0) else .int (t.wrap n)

/-- The result of a floating-point operation of a type, rounded to it. -/
def Ty.floating (t : Ty) (x : Double) : Constant :=
  if t = .f32 then .float (x.toSingle) else .float x

/-- A shift amount of a type: not negative and below the width. -/
def Ty.shiftAmount? (t : Ty) (n : Int64) : Option UInt64 :=
  if 0 ≤ n ∧ n.toInt < t.bits then some n.toUInt64 else none

namespace BinaryOp

/-- The operations on floating-point numbers. -/
def onFloats? (op : BinaryOp) (x y : Double) : Option Double :=
  match op with
  | .fadd => some (x.add y)
  | .fsub => some (x.sub y)
  | .fmul => some (x.mul y)
  | .fdiv => some (x.div y)
  | .frem => some (x.rem y)
  | _ => none

/-- The operations on words of a type; both words are wrapped to it. -/
def onWords? (op : BinaryOp) (t : Ty) (x y : Int64) : Option Int64 :=
  match op with
  | .add => some (x + y)
  | .sub => some (x - y)
  | .mul => some (x * y)
  | .sdiv => if y = 0 then none else some (x / y)
  | .srem => if y = 0 then none else some (x % y)
  | .udiv => if t.unsigned y = 0 then none else some (t.unsigned x / t.unsigned y).toInt64
  | .urem => if t.unsigned y = 0 then none else some (t.unsigned x % t.unsigned y).toInt64
  | .and => some (x &&& y)
  | .or => some (x ||| y)
  | .xor => some (x ^^^ y)
  | .shl => (t.shiftAmount? y).map fun k => (x.toUInt64 <<< k).toInt64
  | .ashr => (t.shiftAmount? y).map fun k => x >>> k.toInt64
  | .lshr => (t.shiftAmount? y).map fun k => (t.unsigned x >>> k).toInt64
  | _ => none

/-- The operation on constants, at a type. -/
def result? (op : BinaryOp) (t : Ty) (a b : Constant) : Option Constant :=
  if t.isFloat then do
    let r ← op.onFloats? (← a.float?) (← b.float?)
    return t.floating r
  else do
    let r ← op.onWords? t (t.wrap (← a.int?)) (t.wrap (← b.int?))
    return t.integer r

end BinaryOp

namespace Predicate

/-- The comparisons of floating-point numbers. Only `une` holds if a side is not a number. -/
def onFloats? (p : Predicate) (x y : Double) : Option Bool :=
  match p with
  | .oeq => some (x.same y)
  | .one => some (x.less y || y.less x)
  | .olt => some (x.less y)
  | .ole => some (x.atMost y)
  | .ogt => some (y.less x)
  | .oge => some (y.atMost x)
  | .une => some (!x.same y)
  | _ => none

/-- The comparisons of words of a type; both words are wrapped to it. -/
def onWords? (p : Predicate) (t : Ty) (x y : Int64) : Option Bool :=
  match p with
  | .eq => some (x == y)
  | .ne => some (x != y)
  | .slt => some (decide (x < y))
  | .sle => some (decide (x ≤ y))
  | .sgt => some (decide (y < x))
  | .sge => some (decide (y ≤ x))
  | .ult => some (decide (t.unsigned x < t.unsigned y))
  | .ule => some (decide (t.unsigned x ≤ t.unsigned y))
  | .ugt => some (decide (t.unsigned y < t.unsigned x))
  | .uge => some (decide (t.unsigned y ≤ t.unsigned x))
  | _ => none

/-- The comparison of constants, at a type. -/
def result? (p : Predicate) (t : Ty) (a b : Constant) : Option Constant :=
  if p.isFloat then do
    return .bool (← p.onFloats? (← a.float?) (← b.float?))
  else do
    return .bool (← p.onWords? t (t.wrap (← a.int?)) (t.wrap (← b.int?)))

end Predicate

namespace UnaryOp

/-- The operation on a constant, at a type. -/
def result? (op : UnaryOp) (t : Ty) (a : Constant) : Option Constant :=
  match op with
  | .fneg => a.float?.map fun x => t.floating x.neg
  | .neg => a.int?.map fun n => t.integer (-n)
  | .not => a.int?.map fun n => t.integer (~~~n)

end UnaryOp

namespace CastOp

/-- A bit pattern read at another type of the same width. Integers of different widths are wrapped. -/
def reinterpret? (a : Constant) (source target : Ty) : Option Constant :=
  match a, source, target with
  | .int n, .i32, .f32 => some (.float (.ofSingleBits n.toUInt64.toUInt32.toNat))
  | .int n, .i64, .f64 => some (.float ⟨n.toUInt64⟩)
  | .float x, .f32, .i32 => some (.int (UInt32.ofNat x.singleBits).toInt32.toInt64)
  | .float x, .f64, .i64 => some (.int x.bits.toInt64)
  | a, source, target =>
    if source = target then some a
    else match a with
      | .int n => if source.isInteger && target.isInteger then some (target.integer n) else none
      | _ => none

/-- The conversion of a constant. A floating-point number outside the range of words becomes the nearest word. -/
def result? (op : CastOp) (a : Constant) (source target : Ty) : Option Constant :=
  match op with
  | .trunc | .sext => a.int?.map fun n => target.integer (source.wrap n)
  | .zext => a.int?.map fun n => target.integer (source.unsigned n).toInt64
  | .sitofp => a.int?.map fun n => target.floating (.ofInt (source.wrap n).toInt)
  | .uitofp => a.int?.map fun n => target.floating (.ofInt (source.unsigned n).toNat)
  | .fptosi => a.float?.map fun x => target.integer (Int64.ofInt (x.truncate Int64.minValue.toInt Int64.maxValue.toInt))
  | .fptoui => a.float?.map fun x => target.integer (UInt64.ofNat (x.truncate 0 (UInt64.size - 1 : Nat)).toNat).toInt64
  | .fptrunc | .fpext => a.float?.map fun x => target.floating x
  | .bitcast => reinterpret? a source target

end CastOp

end Ember.IR
