import Ember.IR.Type
import Ember.Number.Text
import Ember.Text.Quoted

/-!
# Constants and values

A constant is a word, a floating-point number, a boolean or a text. A value is what an instruction may take as an operand.
Two constants are alike as the language compares them: zero is like negative zero, and what is not a number is like nothing.
-/

namespace Ember.IR

/-- Constants. -/
inductive Constant where
  | int (n : Int64)
  | float (x : Double)
  | bool (b : Bool)
  | string (s : String)
deriving DecidableEq, Repr

namespace Constant

/-- The type of a constant about which nothing else is known. -/
def naturalType : Constant → Ty
  | .int _ => .i32
  | .float _ => .f64
  | .bool _ => .bool
  | .string _ => .ptr

/-- The word of an integer or a boolean. -/
def int? : Constant → Option Int64
  | .int n => some n
  | .bool b => some (if b then 1 else 0)
  | _ => none

def float? : Constant → Option Double
  | .float x => some x
  | _ => none

/-- Whether two constants are the same to the language. -/
def like : Constant → Constant → Bool
  | .float x, .float y => x.same y
  | a, b => a = b

def text : Constant → String
  | .int n => toString n.toInt
  | .float x => x.text
  | .bool b => toString b
  | .string s => "c" ++ Text.quoted s

end Constant

/-- The number of a virtual register of a function. -/
abbrev Register := Nat

/-- The position of a block in its function. -/
abbrev BlockId := Nat

/-- Operands of instructions. -/
inductive Value where
  | register (r : Register)
  | constant (c : Constant)
  | parameter (i : Nat)
  /-- The address of a global. -/
  | global (name : String)
  | function (name : String)
  | undef (t : Ty)
  | unit
deriving DecidableEq, Repr

namespace Value

/-- An integer constant. -/
def int (n : Int64) : Value :=
  .constant (.int n)

def constant? : Value → Option Constant
  | .constant c => some c
  | _ => none

def register? : Value → Option Register
  | .register r => some r
  | _ => none

/-- The integer of an integer constant; booleans are none. -/
def int? : Value → Option Int64
  | .constant (.int n) => some n
  | _ => none

/-- Whether two values are the same to the language. -/
def like : Value → Value → Bool
  | .constant a, .constant b => a.like b
  | a, b => a = b

def text : Value → String
  | .register r => "%" ++ toString r
  | .constant c => c.text
  | .parameter i => "%arg" ++ toString i
  | .global name => "@" ++ name
  | .function name => "@" ++ name
  | .undef _ => "undef"
  | .unit => "()"

end Value

end Ember.IR
