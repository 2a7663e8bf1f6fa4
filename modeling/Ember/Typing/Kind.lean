import Ember.IR.Type

/-!
# Kinds of types

The primitive types of the language, with their representation, their code in symbols and their record for a debugger; and
the kinds of types: a primitive, a function, or another name for a type.
-/

namespace Ember

/-- The primitive types. `int` is a word of 64 bits, `byte` is unsigned. -/
inductive Primitive where
  | void | i8 | i16 | i32 | i64 | int | bool | f32 | f64 | float | byte | char | bchar | string | cstring
deriving DecidableEq, Repr

namespace Primitive

/-- Every primitive type, in the order of the type table. -/
def all : List Primitive :=
  [.void, .i8, .i16, .i32, .i64, .int, .bool, .f32, .f64, .float, .byte, .char, .bchar, .string, .cstring]

/-- The name that a source writes. -/
def name : Primitive → String
  | .void => "void"
  | .i8 => "i8"
  | .i16 => "i16"
  | .i32 => "i32"
  | .i64 => "i64"
  | .int => "int"
  | .bool => "bool"
  | .f32 => "f32"
  | .f64 => "f64"
  | .float => "float"
  | .byte => "byte"
  | .char => "char"
  | .bchar => "bchar"
  | .string => "string"
  | .cstring => "cstring"

/-- The primitive type of a name; `void` if there is none. -/
def ofName (name : String) : Primitive :=
  (all.find? (·.name == name)).getD .void

def isIntegral : Primitive → Bool
  | .i8 | .i16 | .i32 | .i64 | .int | .byte => true
  | _ => false

def isFloating : Primitive → Bool
  | .f32 | .f64 | .float => true
  | _ => false

def isCharacter : Primitive → Bool
  | .char | .bchar => true
  | _ => false

/-- Whether arithmetic and extension are unsigned. -/
def isUnsigned : Primitive → Bool
  | .byte | .char | .bchar => true
  | _ => false

/-- How values are represented. -/
def ir : Primitive → IR.Ty
  | .void => .void
  | .i8 | .byte | .bchar => .i8
  | .i16 => .i16
  | .i32 | .char => .i32
  | .i64 | .int => .i64
  | .bool => .bool
  | .f32 => .f32
  | .f64 | .float => .f64
  | .string | .cstring => .ptr

/-- The code of the type in a symbol. -/
def code : Primitive → String
  | .void => "V"
  | .i8 => "I8"
  | .i16 => "I16"
  | .i32 => "I32"
  | .i64 => "I64"
  | .int => "Iw"
  | .bool => "Z"
  | .f32 => "F32"
  | .f64 => "F64"
  | .float => "Fw"
  | .byte => "Y"
  | .char => "C"
  | .bchar => "B"
  | .string => "S"
  | .cstring => "Sc"

/-- The name of the kind in descriptions. -/
def label : Primitive → String
  | .void => "Void"
  | .i8 => "I8"
  | .i16 => "I16"
  | .i32 => "I32"
  | .i64 => "I64"
  | .int => "Int"
  | .bool => "Bool"
  | .f32 => "F32"
  | .f64 => "F64"
  | .float => "Float"
  | .byte => "Byte"
  | .char => "Char"
  | .bchar => "BChar"
  | .string => "String"
  | .cstring => "CString"

end Primitive

/-- How a debugger reads a value. -/
inductive Encoding where
  | signed | unsigned | float | boolean | signedChar | unsignedChar | address
deriving DecidableEq, Repr

def Encoding.text : Encoding → String
  | .signed => "DW_ATE_signed"
  | .unsigned => "DW_ATE_unsigned"
  | .float => "DW_ATE_float"
  | .boolean => "DW_ATE_boolean"
  | .signedChar => "DW_ATE_signed_char"
  | .unsignedChar => "DW_ATE_unsigned_char"
  | .address => "DW_ATE_address"

/-- The record of a type for a debugger. -/
structure DebugType where
  name : String
  bits : Nat
  encoding : Encoding
deriving DecidableEq, Repr

def DebugType.text (d : DebugType) : String :=
  d.name ++ ":" ++ toString d.bits ++ ":" ++ d.encoding.text

namespace Primitive

def encoding? : Primitive → Option Encoding
  | .void => none
  | .i8 | .i16 | .i32 | .i64 | .int => some .signed
  | .bool => some .boolean
  | .f32 | .f64 | .float => some .float
  | .byte => some .unsigned
  | .char => some .signedChar
  | .bchar => some .unsignedChar
  | .string | .cstring => some .address

/-- The record for a debugger; `void` has none. -/
def debug? (p : Primitive) : Option DebugType :=
  p.encoding?.map fun encoding => { name := p.name, bits := p.ir.bits, encoding }

end Primitive

/-- Kinds of types. -/
inductive TypeKind where
  | primitive (p : Primitive)
  | function
  | alias
deriving DecidableEq, Repr

namespace TypeKind

def all : List TypeKind :=
  Primitive.all.map .primitive ++ [.function, .alias]

/-- The name of the kind in descriptions. -/
def label : TypeKind → String
  | .primitive p => p.label
  | .function => "Function"
  | .alias => "Alias"

def isIntegral : TypeKind → Bool
  | .primitive p => p.isIntegral
  | _ => false

def isFloating : TypeKind → Bool
  | .primitive p => p.isFloating
  | _ => false

def isCharacter : TypeKind → Bool
  | .primitive p => p.isCharacter
  | _ => false

def isUnsigned : TypeKind → Bool
  | .primitive p => p.isUnsigned
  | _ => false

def isVoid (k : TypeKind) : Bool :=
  k = .primitive .void

def isBool (k : TypeKind) : Bool :=
  k = .primitive .bool

/-- Whether values can be stored. -/
def isSized (k : TypeKind) : Bool :=
  !k.isVoid && k != .function

end TypeKind

end Ember
