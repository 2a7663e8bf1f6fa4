import Ember.Typing.Table

/-!
# Operands

What an expression becomes: a value with its type, and whether the value is the address of a place.
-/

namespace Ember

/-- A value and its type. -/
structure Operand where
  type : TypeId
  value : IR.Value
  /-- The value is the address of a place that holds a value of the type. -/
  isPlace : Bool := false
  /-- The place may be assigned. -/
  mutable : Bool := false
  /-- A number as it was written, which may still take the type of its context. -/
  isLiteral : Bool := false
deriving DecidableEq, Repr

namespace Operand

/-- A place at an address. -/
def place (type : TypeId) (address : IR.Value) (mutable : Bool) : Operand :=
  { type, value := address, isPlace := true, mutable }

/-- A number as it was written. -/
def literal (type : TypeId) (c : IR.Constant) : Operand :=
  { type, value := .constant c, isLiteral := true }

end Operand

end Ember
