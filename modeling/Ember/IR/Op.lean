/-!
# Operations of the intermediate form

Binary operations, comparisons, unary operations and conversions, with the names that are printed.
-/

namespace Ember.IR

/-- Binary operations: on integers, on floating-point numbers, on bits. -/
inductive BinaryOp where
  | add | sub | mul | sdiv | udiv | srem | urem
  | fadd | fsub | fmul | fdiv | frem
  | and | or | xor | shl | ashr | lshr
deriving DecidableEq, Repr

namespace BinaryOp

def all : List BinaryOp :=
  [.add, .sub, .mul, .sdiv, .udiv, .srem, .urem, .fadd, .fsub, .fmul, .fdiv, .frem, .and, .or, .xor, .shl, .ashr, .lshr]

def isCommutative : BinaryOp → Bool
  | .add | .mul | .fadd | .fmul | .and | .or | .xor => true
  | _ => false

def name : BinaryOp → String
  | .add => "add"
  | .sub => "sub"
  | .mul => "mul"
  | .sdiv => "sdiv"
  | .udiv => "udiv"
  | .srem => "srem"
  | .urem => "urem"
  | .fadd => "fadd"
  | .fsub => "fsub"
  | .fmul => "fmul"
  | .fdiv => "fdiv"
  | .frem => "frem"
  | .and => "and"
  | .or => "or"
  | .xor => "xor"
  | .shl => "shl"
  | .ashr => "ashr"
  | .lshr => "lshr"

end BinaryOp

/-- Comparisons: of integers (signed and unsigned), of ordered floating-point numbers, and the unordered `une`, which also
holds if one side is not a number. -/
inductive Predicate where
  | eq | ne | slt | sle | sgt | sge | ult | ule | ugt | uge
  | oeq | one | olt | ole | ogt | oge
  | une
deriving DecidableEq, Repr

namespace Predicate

def all : List Predicate :=
  [.eq, .ne, .slt, .sle, .sgt, .sge, .ult, .ule, .ugt, .uge, .oeq, .one, .olt, .ole, .ogt, .oge, .une]

/-- Whether floating-point numbers are compared. -/
def isFloat : Predicate → Bool
  | .oeq | .one | .olt | .ole | .ogt | .oge | .une => true
  | _ => false

def name : Predicate → String
  | .eq => "eq"
  | .ne => "ne"
  | .slt => "slt"
  | .sle => "sle"
  | .sgt => "sgt"
  | .sge => "sge"
  | .ult => "ult"
  | .ule => "ule"
  | .ugt => "ugt"
  | .uge => "uge"
  | .oeq => "oeq"
  | .one => "one"
  | .olt => "olt"
  | .ole => "ole"
  | .ogt => "ogt"
  | .oge => "oge"
  | .une => "une"

end Predicate

/-- Unary operations; `not` flips every bit, and so negates a boolean. -/
inductive UnaryOp where
  | neg | fneg | not
deriving DecidableEq, Repr

namespace UnaryOp

def all : List UnaryOp := [.neg, .fneg, .not]

def name : UnaryOp → String
  | .neg => "neg"
  | .fneg => "fneg"
  | .not => "not"

end UnaryOp

/-- Conversions between types. -/
inductive CastOp where
  | trunc | sext | zext | fptrunc | fpext | sitofp | uitofp | fptosi | fptoui | bitcast
deriving DecidableEq, Repr

namespace CastOp

def all : List CastOp := [.trunc, .sext, .zext, .fptrunc, .fpext, .sitofp, .uitofp, .fptosi, .fptoui, .bitcast]

def name : CastOp → String
  | .trunc => "trunc"
  | .sext => "sext"
  | .zext => "zext"
  | .fptrunc => "fptrunc"
  | .fpext => "fpext"
  | .sitofp => "sitofp"
  | .uitofp => "uitofp"
  | .fptosi => "fptosi"
  | .fptoui => "fptoui"
  | .bitcast => "bitcast"

end CastOp

end Ember.IR
