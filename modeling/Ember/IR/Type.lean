/-!
# Types of the intermediate form

Scalars and function types. Integers live in 64-bit words: a type says how a word is wrapped to its width and how it is read
as an unsigned number.
-/

namespace Ember.IR

/-- Types of single values; `void` has none. -/
inductive Scalar where
  | void | bool | i8 | i16 | i32 | i64 | f32 | f64 | ptr
deriving DecidableEq, Repr

/-- A scalar, or a function from parameter types to a return type. -/
inductive Ty where
  | scalar (s : Scalar)
  | function (params : List Ty) (ret : Ty)
deriving Repr

namespace Ty

@[match_pattern] abbrev void : Ty := .scalar .void
@[match_pattern] abbrev bool : Ty := .scalar .bool
@[match_pattern] abbrev i8 : Ty := .scalar .i8
@[match_pattern] abbrev i16 : Ty := .scalar .i16
@[match_pattern] abbrev i32 : Ty := .scalar .i32
@[match_pattern] abbrev i64 : Ty := .scalar .i64
@[match_pattern] abbrev f32 : Ty := .scalar .f32
@[match_pattern] abbrev f64 : Ty := .scalar .f64
@[match_pattern] abbrev ptr : Ty := .scalar .ptr

instance : Inhabited Ty := ⟨.void⟩

mutual

/-- Equality of types is decided by their structure. -/
def decEq : (a b : Ty) → Decidable (a = b)
  | .scalar s, .scalar t => if h : s = t then isTrue (h ▸ rfl) else isFalse fun e => h (Ty.scalar.inj e)
  | .function ps r, .function qs t =>
    match decEqList ps qs, decEq r t with
    | isTrue hp, isTrue hr => isTrue (hp ▸ hr ▸ rfl)
    | isFalse hp, _ => isFalse fun e => hp (Ty.function.inj e).1
    | _, isFalse hr => isFalse fun e => hr (Ty.function.inj e).2
  | .scalar _, .function _ _ => isFalse nofun
  | .function _ _, .scalar _ => isFalse nofun

/-- Equality of lists of types. -/
def decEqList : (as bs : List Ty) → Decidable (as = bs)
  | [], [] => isTrue rfl
  | a :: as, b :: bs =>
    match decEq a b, decEqList as bs with
    | isTrue h, isTrue hs => isTrue (h ▸ hs ▸ rfl)
    | isFalse h, _ => isFalse fun e => h (List.cons.inj e).1
    | _, isFalse hs => isFalse fun e => hs (List.cons.inj e).2
  | [], _ :: _ => isFalse nofun
  | _ :: _, [] => isFalse nofun

end

instance : DecidableEq Ty := decEq

/-- The size of a value in bytes. -/
def bytes : Ty → Nat
  | .void => 0
  | .bool => 1
  | .i8 => 1
  | .i16 => 2
  | .i32 => 4
  | .i64 => 8
  | .f32 => 4
  | .f64 => 8
  | .ptr => 8
  | .function _ _ => 0

/-- The width of a value in bits. -/
def bits : Ty → Nat
  | .bool => 1
  | t => t.bytes * 8

/-- Booleans count as integers of one bit. -/
def isInteger : Ty → Bool
  | .bool => true
  | .i8 => true
  | .i16 => true
  | .i32 => true
  | .i64 => true
  | _ => false

def isFloat : Ty → Bool
  | .f32 => true
  | .f64 => true
  | _ => false

/-- Wraps a word to the width of the type and extends its sign; a boolean keeps its lowest bit. Other types keep the whole
word. -/
def wrap (t : Ty) (n : Int64) : Int64 :=
  match t with
  | .bool => n &&& 1
  | .i8 => n.toInt8.toInt64
  | .i16 => n.toInt16.toInt64
  | .i32 => n.toInt32.toInt64
  | _ => n

/-- The word read as an unsigned number of the width of the type. -/
def unsigned (t : Ty) (n : Int64) : UInt64 :=
  match t with
  | .bool => n.toUInt64 &&& 1
  | .i8 => n.toUInt64.toUInt8.toUInt64
  | .i16 => n.toUInt64.toUInt16.toUInt64
  | .i32 => n.toUInt64.toUInt32.toUInt64
  | _ => n.toUInt64

mutual

/-- A type as it is printed. -/
def text : Ty → String
  | .void => "void"
  | .bool => "i1"
  | .i8 => "i8"
  | .i16 => "i16"
  | .i32 => "i32"
  | .i64 => "i64"
  | .f32 => "float"
  | .f64 => "double"
  | .ptr => "ptr"
  | .function ps r => r.text ++ " (" ++ ", ".intercalate (texts ps) ++ ")"

/-- Types as they are printed. -/
def texts : List Ty → List String
  | [] => []
  | t :: ts => t.text :: texts ts

end

end Ty

end Ember.IR
