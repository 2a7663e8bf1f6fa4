import Ember.Lower.Literal

/-!
# Lowering expressions

Operands are lowered from left to right, each before the operator that joins them. A variable definition counts as an
expression: its operand is the new variable.
-/

namespace Ember

/-- The name of a variable that is read. -/
def Node.variable? : Node → Option String
  | ⟨_, .variable name⟩ => some name
  | _ => none

namespace Lowering

/-- The type of a local variable: the declared one, or that of the initial value. -/
def localType (binder : Binder) (init : Option Operand) (loc : Loc) : Lowering TypeId := do
  match binder.type, init with
  | some written, none => resolve written
  | some written, some x => if binder.inferred then return x.type else resolve written
  | none, some x => return x.type
  | none, none => throw (.malformed "VariableDefinition" (.neitherTypeNorValue binder.name) loc)

/-- The value with which a local variable starts. Without an initial value it is undefined, and the user is warned. -/
def localStart (binder : Binder) (init : Option Operand) (type : TypeId) (loc : Loc) : Lowering IR.Value := do
  match init with
  | some x => return (← coerce x type loc).value
  | none =>
    warn (if binder.mutable then .uninitialized binder.name else .useless binder.name) loc
    return .undef (← irOf type)

/-- Makes a local variable: a slot that holds the initial value, and a name for it. -/
def bindLocal (binder : Binder) (init : Option Operand) (loc : Loc) : Lowering Operand := do
  let type ← immutableOf (← localType binder init loc)
  checkSized type loc
  let ir ← irOf type
  let start ← localStart binder init type loc
  let slot ← build (.slot ir)
  build (.store ir start slot)
  let type ← if binder.mutable then mutableOf type else pure type
  let operand := Operand.place type slot binder.mutable
  bind { name := binder.name, operand, loc, isFunction := false }
  return operand

/-- Converts a value to a written type. -/
def castTo (x : Operand) (written : TypeRef) (loc : Loc) : Lowering Operand := do
  let target ← immutableOf (← resolve written)
  cast .explicit x target loc

/-- No object has parts. -/
def unsupportedAccess (attempt : Attempt) (object : Operand) (loc : Loc) : Lowering Operand := do
  throw (.unsupported attempt (.type (← nameOf object.type)) loc)

/-- The parameters of a callee, which must be a function. -/
def parametersOf (callee : Operand) (loc : Loc) : Lowering (List (TypeId × PassMode)) := do
  if (← kindOf callee.type) ≠ .function then unsupported .call callee.type loc
  match ((← typesWith [callee.type]).entry callee.type).signature? with
  | some signature => return signature.params
  | none => return []

mutual

/-- Lowers an expression. -/
def expression : Node → Lowering Operand
  | ⟨loc, .identifier name⟩ => lookup name loc
  | ⟨loc, .variable name⟩ => do read (← lookup name loc)
  | ⟨loc, .define binder init⟩ => do
    checkNotReserved binder.name loc
    let init ← initial init
    bindLocal binder init loc
  | ⟨loc, .cast inner type⟩ => do
    let x ← read (← expression inner)
    castTo x type loc
  | ⟨loc, .call callee args⟩ => do
    let callee ← read (← expression callee)
    let params ← parametersOf callee loc
    let args ← argumentList params args
    Family.call callee args loc
  | ⟨loc, .member object _⟩ => do unsupportedAccess .memberAccess (← expression object) loc
  | ⟨loc, .subscript object _⟩ => do unsupportedAccess .subscript (← expression object) loc
  | ⟨loc, .slice object _ _⟩ => do unsupportedAccess .slice (← expression object) loc
  | ⟨loc, .unary op operand⟩ => do
    let x ← read (← expression operand)
    (← kindOf x.type).family.unary op x loc
  | ⟨loc, .binary op left right⟩ => do
    let l ← read (← expression left)
    let r ← read (← expression right)
    let (l, r) ← adaptPair l r
    (← kindOf l.type).family.binary op l r loc
  | ⟨loc, .assign op target value⟩ => do
    let target ← expression target
    let x ← read (← expression value)
    let x ← adapt x target.type
    (← kindOf target.type).family.assign op target x loc
  | ⟨_, form⟩ =>
    match form.literal? with
    | some x => return x
    | none => breach (.notExpression form.name)

/-- Lowers and reads an initial value, if there is one. -/
def initial : Option Node → Lowering (Option Operand)
  | none => return none
  | some n => do return some (← read (← expression n))

/-- Lowers arguments one after the other. A variable that goes to a `ref` is not read. -/
def argumentList : List (TypeId × PassMode) → List Node → Lowering (List Operand)
  | _, [] => return []
  | params, n :: ns => do
    let x ← match params.head?, n.variable? with
      | some (_, .ref), some name => lookup name n.loc
      | some (type, _), _ => do adapt (← read (← expression n)) type
      | none, _ => do read (← expression n)
    return x :: (← argumentList params.tail ns)

end

/-- Lowers the initial value of a global: a literal, or a cast of one. -/
def constant : Node → Lowering Operand
  | ⟨loc, .cast inner type⟩ => do
    let x ← constant inner
    castTo x type loc
  | ⟨loc, form⟩ =>
    match form.literal? with
    | some x => if x.value.constant?.isSome then return x else fail form loc
    | none => fail form loc
where
  fail (form : Form Node) (loc : Loc) : Lowering Operand :=
    throw (.unsupported .initializer (.form form.name) loc)

end Lowering

end Ember
