import Ember.Typing.Table

/-!
# Casts

Which conversions a place allows, and how each is carried out. Without being asked for, a value changes nothing but the
mutability and the name of its type.
-/

namespace Ember

/-- Which conversions a place allows. -/
inductive CastMode where
  /-- Only to types that are alike. -/
  | implicit
  /-- Those of an `as`. -/
  | explicit
  /-- Reading the same bits at another type of the same width. -/
  | bitcast
deriving DecidableEq, Repr

/-- How a conversion is carried out. -/
inductive CastPlan where
  | identity
  /-- The same value under another type. -/
  | retag
  | convert (op : IR.CastOp)
  /-- A comparison with zero. -/
  | notZero
deriving DecidableEq, Repr

def CastPlan.text : CastPlan → String
  | .identity => "identity"
  | .retag => "retag"
  | .convert op => "convert " ++ op.name
  | .notZero => "notzero"

/-- Whether values have bits to read. -/
def IR.Ty.hasBits : IR.Ty → Bool
  | .void => false
  | .function _ _ => false
  | _ => true

namespace TypeTable

/-- Reading the bits of one representation at another of the same width. -/
def bitcastPlan? (source target : IR.Ty) : Option CastPlan :=
  if !source.hasBits || !target.hasBits || source.bits != target.bits then none
  else if source = target then some .retag
  else some (.convert .bitcast)

/-- A change of width: narrower, wider, or none. -/
def resizePlan (narrow widen : IR.CastOp) (source target : Nat) : CastPlan :=
  if target < source then .convert narrow
  else if source < target then .convert widen
  else .retag

/-- The conversions of an `as` between numbers and booleans. -/
def numberPlan? (source target : TypeKind) (sourceBits targetBits : Nat) : Option CastPlan :=
  if source.isIntegral && target.isIntegral then
    some (resizePlan .trunc (if source.isUnsigned then .zext else .sext) sourceBits targetBits)
  else if source.isIntegral && target.isBool then some .notZero
  else if source.isIntegral && target.isFloating then
    some (.convert (if source.isUnsigned then .uitofp else .sitofp))
  else if source.isBool && target.isIntegral then some (.convert .zext)
  else if source.isBool && target.isFloating then some (.convert .uitofp)
  else if source.isFloating && target.isIntegral then
    some (.convert (if target.isUnsigned then .fptoui else .fptosi))
  else if source.isFloating && target.isBool then some .notZero
  else if source.isFloating && target.isFloating then some (resizePlan .fptrunc .fpext sourceBits targetBits)
  else none

/-- How a value of one type becomes a value of another, if the mode allows it. Characters only change type if their bits
do not change. -/
def plan? (t : TypeTable) (source target : TypeId) (mode : CastMode) : Option CastPlan :=
  if source = target then some .identity
  else if t.alike source target then some .retag
  else
    match mode with
    | .implicit => none
    | .bitcast => bitcastPlan? (t.ir source) (t.ir target)
    | .explicit =>
      let sourceKind := t.kind source
      let targetKind := t.kind target
      if sourceKind.isCharacter || targetKind.isCharacter then bitcastPlan? (t.ir source) (t.ir target)
      else numberPlan? sourceKind targetKind (t.ir source).bits (t.ir target).bits

/-- Whether a value of one type is accepted where another is expected. -/
def accepts (t : TypeTable) (source target : TypeId) : Bool :=
  t.alike source target || (t.plan? source target .implicit).isSome

end TypeTable

end Ember
