import Ember.Source.Loc

/-!
# Operators, pass modes, written types

The small parts of which nodes are made.
-/

namespace Ember

/-- Operators of expressions; `call` is the one that takes any number of operands. -/
inductive Operator where
  | add | sub | mul | div | mod
  | eq | ne | lt | le | gt | ge
  | logicalAnd | logicalOr
  | bitAnd | bitOr | bitXor | shl | shr
  | unaryPlus | unaryMinus | bitNot | logicalNot
  | assign | addAssign | subAssign | mulAssign | divAssign | modAssign
  | call
deriving DecidableEq, Repr

namespace Operator

/-- Every operator, in the order above. -/
def all : List Operator :=
  [.add, .sub, .mul, .div, .mod, .eq, .ne, .lt, .le, .gt, .ge, .logicalAnd, .logicalOr, .bitAnd, .bitOr, .bitXor, .shl,
    .shr, .unaryPlus, .unaryMinus, .bitNot, .logicalNot, .assign, .addAssign, .subAssign, .mulAssign, .divAssign,
    .modAssign, .call]

/-- The operator as a source writes it. -/
def symbol : Operator → String
  | .add | .unaryPlus => "+"
  | .sub | .unaryMinus => "-"
  | .mul => "*"
  | .div => "/"
  | .mod => "%"
  | .eq => "=="
  | .ne => "!="
  | .lt => "<"
  | .le => "<="
  | .gt => ">"
  | .ge => ">="
  | .logicalAnd => "&&"
  | .logicalOr => "||"
  | .bitAnd => "&"
  | .bitOr => "|"
  | .bitXor => "^"
  | .shl => "<<"
  | .shr => ">>"
  | .bitNot => "~"
  | .logicalNot => "!"
  | .assign => "="
  | .addAssign => "+="
  | .subAssign => "-="
  | .mulAssign => "*="
  | .divAssign => "/="
  | .modAssign => "%="
  | .call => "()"

/-- The operator that a compound assignment applies before it stores. -/
def compoundBase? : Operator → Option Operator
  | .addAssign => some .add
  | .subAssign => some .sub
  | .mulAssign => some .mul
  | .divAssign => some .div
  | .modAssign => some .mod
  | _ => none

def isComparison : Operator → Bool
  | .eq | .ne | .lt | .le | .gt | .ge => true
  | _ => false

end Operator

/-- How a parameter receives its argument: a copy of it, its address, or a copy that cannot be changed. -/
inductive PassMode where
  | copy | ref | view
deriving DecidableEq, Repr

def PassMode.text : PassMode → String
  | .copy => "copy"
  | .ref => "ref"
  | .view => "view"

/-- A type as a source writes it: a name, perhaps behind `mut`. -/
structure TypeRef where
  name : String
  mutable : Bool
  loc : Loc
deriving DecidableEq, Repr

def TypeRef.text (t : TypeRef) : String :=
  if t.mutable then "mut " ++ t.name else t.name

end Ember
