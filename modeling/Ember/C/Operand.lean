import Ember.C.Escape
import Ember.IR.Module

/-!
# Types and values in C

Registers, parameters and slots are local variables, named by their numbers.
-/

namespace Ember.C

/-- The C type of values of a type. -/
def typeName : IR.Ty → String
  | .void => "void"
  | .bool => "bool"
  | .i8 => "int8_t"
  | .i16 => "int16_t"
  | .i32 => "int32_t"
  | .i64 => "int64_t"
  | .f32 => "float"
  | .f64 => "double"
  | .ptr => "void*"
  | .function _ _ => "void*"

/-- The unsigned C type of the same width, in which arithmetic wraps. -/
def unsignedName : IR.Ty → String
  | .i8 => "uint8_t"
  | .i16 => "uint16_t"
  | .i32 => "uint32_t"
  | .i64 => "uint64_t"
  | t => typeName t

def boolText (b : Bool) : String :=
  if b then "true" else "false"

/-- An integer constant of a type. The least word has no literal, since a minus is not part of one. -/
def integer (n : Int64) (t : IR.Ty) : String :=
  if n = Int64.minValue then "INT64_MIN"
  else if t.isFloat then toString n.toInt ++ ".0"
  else
    match t with
    | .i64 => "INT64_C(" ++ toString n.toInt ++ ")"
    | .ptr => "INT64_C(" ++ toString n.toInt ++ ")"
    | .bool => boolText (n &&& 1 == 1)
    | _ => toString n.toInt

/-- A floating-point constant of a type. -/
def floating (x : Double) (t : IR.Ty) : String :=
  match x.parts with
  | .nan => "NAN"
  | .infinite negative => if negative then "-INFINITY" else "INFINITY"
  | .finite .. => if t = .f32 then x.singleText ++ "f" else x.text

/-- A constant of a type. -/
def constant (c : IR.Constant) (t : IR.Ty) : String :=
  match c with
  | .int n => integer n t
  | .float x => floating x t
  | .bool b => boolText b
  | .string s => quoted s

def register (r : IR.Register) : String :=
  "_t" ++ toString r

def parameter (i : Nat) : String :=
  "_arg" ++ toString i

def slot (r : IR.Register) : String :=
  "_slot" ++ toString r

/-- A value, of a type where that matters. -/
def value (v : IR.Value) (t : IR.Ty) : String :=
  match v with
  | .register r => register r
  | .constant c => constant c t
  | .parameter i => parameter i
  | .global name => "((void*)&" ++ name ++ ")"
  | .function name => "((void*)&" ++ name ++ ")"
  | .undef _ | .unit =>
    match t with
    | .ptr => "NULL"
    | .function _ _ => "NULL"
    | t => "((" ++ typeName t ++ ")0)"

end Ember.C
