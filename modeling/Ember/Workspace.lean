import Ember.IR.Builder
import Ember.Journal
import Ember.Scope

/-!
# The workspace

What lowering works on: the types, the names in scope, the module under construction and the journal. A step that fails
leaves the workspace as it was when it failed, so what was written before can still be read.
-/

namespace Ember

/-- The state of lowering. -/
structure Workspace where
  types : TypeTable
  scopes : Scopes := .initial
  builder : IR.Builder
  /-- The functions that have a body. -/
  defined : List String := []
  /-- The return type of the function that is being lowered. -/
  returns : Option TypeId := none
  journal : Journal := []

/-- Lowering steps. -/
abbrev Lowering := EStateM Fault Workspace

namespace Lowering

/-- A step of the builder. -/
def build {α : Type} (step : IR.Build α) : Lowering α := fun w =>
  match step.run w.builder with
  | .ok a b => .ok a { w with builder := b }
  | .error f b => .error f { w with builder := b }

/-- A step that may extend the type table. -/
def onTypes {α : Type} (step : TypeTable → α × TypeTable) : Lowering α :=
  modifyGet fun w =>
    let (a, types) := step w.types
    (a, { w with types })

/-- A step that may extend the type table, or fail and leave it. -/
def tryTypes {α : Type} (step : TypeTable → Except Fault (α × TypeTable)) : Lowering α := do
  match step (← get).types with
  | .error f => throw f
  | .ok (a, types) =>
    modify fun w => { w with types }
    return a

/-- Stops with a fault of the compiler. -/
def breach {α : Type} (cause : Breach) : Lowering α :=
  throw (.breach cause)

def types : Lowering TypeTable :=
  return (← get).types

/-- The type table, which is about to be asked for some types. It handed them out itself, so one that it does not have is a
fault of the compiler. -/
def typesWith (ids : List TypeId) : Lowering TypeTable := do
  let t ← types
  match ids.find? (t.entries.length ≤ ·) with
  | some id => breach (.noType id)
  | none => return t

/-- The decorated name of a type. -/
def nameOf (id : TypeId) : Lowering String :=
  return (← typesWith [id]).nameOf id

/-- The representation of a type. -/
def irOf (id : TypeId) : Lowering IR.Ty :=
  return (← typesWith [id]).ir id

/-- The kind of a type. -/
def kindOf (id : TypeId) : Lowering TypeKind :=
  return (← typesWith [id]).kind id

def immutableOf (id : TypeId) : Lowering TypeId := do
  let _ ← typesWith [id]
  onTypes (·.immutableOf id)

def mutableOf (id : TypeId) : Lowering TypeId := do
  let _ ← typesWith [id]
  onTypes (·.mutableOf id)

/-- The type that a source writes. -/
def resolve (written : TypeRef) : Lowering TypeId :=
  tryTypes (·.resolve written)

/-- Writes an entry into the journal. -/
def note (e : Event) : Lowering Unit :=
  modify fun w => { w with journal := w.journal ++ [e] }

/-- Warns the user. -/
def warn (caution : Caution) (loc : Loc) : Lowering Unit :=
  note (.warned ⟨caution, loc⟩)

def enterScope : Lowering Unit :=
  modify fun w => { w with scopes := w.scopes.enter }

def leaveScope : Lowering Unit :=
  modify fun w => { w with scopes := w.scopes.leave }

/-- Gives a name a meaning in the innermost scope. -/
def bind (symbol : Symbol) : Lowering Unit := do
  match (← get).scopes.bind symbol with
  | .error f => throw f
  | .ok scopes => modify fun w => { w with scopes }

/-- The meaning of a name. -/
def lookup? (name : String) : Lowering (Option Symbol) :=
  return (← get).scopes.find? name

/-- The operand that a name stands for. -/
def lookup (name : String) (loc : Loc) : Lowering Operand := do
  match ← lookup? name with
  | some symbol => return symbol.operand
  | none => throw (.undefinedName name loc)

/-- Stops because a value has the wrong type. -/
def mismatch {α : Type} (expected : Wanted) (got : TypeId) (loc : Loc) : Lowering α := do
  throw (.mismatch expected (.type (← nameOf got)) loc)

/-- Stops because a type has no such operation. -/
def unsupported {α : Type} (op : Operator) (type : TypeId) (loc : Loc) : Lowering α := do
  throw (.unsupported (.operator op) (.type (← nameOf type)) loc)

end Lowering

end Ember
