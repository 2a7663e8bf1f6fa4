import Ember.IR.Op
import Ember.IR.Value

/-!
# Data and crashes

What a running program holds in registers and memory, and why it may stop.
-/

namespace Ember

/-- A value at run time. -/
inductive Datum where
  | constant (c : IR.Constant)
  /-- The address of a memory cell. -/
  | pointer (cell : Nat)
  | undef
  | unit
deriving DecidableEq, Repr

namespace Datum

instance : Inhabited Datum := ⟨.undef⟩

/-- A constant in a message. -/
def constantText : IR.Constant → String
  | .int n => "Int(" ++ toString n.toInt ++ ")"
  | .float x => "Float(" ++ x.text ++ ")"
  | .bool b => "Bool(" ++ toString b ++ ")"
  | .string s => "String(" ++ Text.quoted s ++ ")"

/-- A value in a message. -/
def text : Datum → String
  | .constant c => "Const(" ++ constantText c ++ ")"
  | .pointer cell => "Ptr(" ++ toString cell ++ ")"
  | .undef => "Undef"
  | .unit => "Unit"

end Datum

/-- What may be wrong with code that runs. -/
inductive Malformation where
  | argumentCount (function : String) (expected given : Nat)
  | missingBlock (id : IR.BlockId)
  | openBlock (label function : String)
  | incomparable (a b : IR.Constant)
  | inapplicable (op : IR.UnaryOp) (a : IR.Constant)
  | inconvertible (op : IR.CastOp) (a : IR.Constant)
  | phiInEntry
  | noPhiEdge (source : IR.BlockId)
  | registerOutOfRange (r : IR.Register)
  | parameterOutOfRange (i : Nat)
  | unknownGlobal (name : String)
  | functionAsValue (name : String)
  | notAddress (d : Datum)
deriving DecidableEq, Repr

def Malformation.text : Malformation → String
  | .argumentCount function expected given =>
    function ++ " takes " ++ toString expected ++ " arguments, got " ++ toString given
  | .missingBlock id => "missing block " ++ toString id
  | .openBlock label function => "block " ++ label ++ " of " ++ function ++ " has no terminator"
  | .incomparable a b => "cannot compare " ++ a.text ++ " and " ++ b.text
  | .inapplicable op a => "cannot apply " ++ op.name ++ " to " ++ a.text
  | .inconvertible op a => "cannot " ++ op.name ++ " " ++ a.text
  | .phiInEntry => "phi in entry block"
  | .noPhiEdge source => "phi has no edge from block " ++ toString source
  | .registerOutOfRange r => "register %" ++ toString r ++ " out of range"
  | .parameterOutOfRange i => "parameter " ++ toString i ++ " out of range"
  | .unknownGlobal name => "unknown global @" ++ name
  | .functionAsValue name => "@" ++ name ++ " used as a value"
  | .notAddress d => d.text ++ " is not an address"

/-- Why a program stops without a result. -/
inductive Crash where
  | unknownFunction (name : String)
  | declaration (name : String)
  | outOfFuel
  | stackOverflow
  | trap (function : String)
  | unreachable (function : String)
  | undefined (function : String)
  | malformed (cause : Malformation)
deriving DecidableEq, Repr

namespace Crash

/-- The name of the kind of crash. -/
def tag : Crash → String
  | .unknownFunction _ => "UnknownFunction"
  | .declaration _ => "Declaration"
  | .outOfFuel => "OutOfFuel"
  | .stackOverflow => "StackOverflow"
  | .trap _ => "Trap"
  | .unreachable _ => "Unreachable"
  | .undefined _ => "Undefined"
  | .malformed _ => "Malformed"

/-- What the user reads. -/
def message : Crash → String
  | .unknownFunction name => "unknown function " ++ name
  | .declaration name => "function " ++ name ++ " is only declared"
  | .outOfFuel => "out of fuel"
  | .stackOverflow => "call depth limit exceeded"
  | .trap function => "trap in " ++ function ++ ": division by zero or invalid shift"
  | .unreachable function => "reached unreachable in " ++ function
  | .undefined function => "use of an undefined value in " ++ function
  | .malformed cause => "malformed IR: " ++ cause.text

end Crash

end Ember
