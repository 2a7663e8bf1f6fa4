import Ember.Fault
import Ember.Tree.Node

/-!
# Shape checks

A tree is well shaped when its definitions say enough, its parameters are typed definitions without a value, and its
functions have a prototype and a block. Nodes are checked in the order of the source, and the first defect is reported.
-/

namespace Ember

namespace Binder

/-- What is wrong with the head of a definition. -/
def defect? (b : Binder) (hasInit : Bool) : Option Defect :=
  if b.name.isEmpty then some .unnamed
  else if b.inferred && b.type.isSome then some (.inferredWithType b.name)
  else if b.inferred && !hasInit then some (.needsTypeOrValue b.name)
  else if !b.inferred && b.type.isNone then some (.untyped b.name)
  else none

/-- What makes a definition unfit as a parameter. -/
def parameterDefect? (b : Binder) (hasInit : Bool) : Option Defect :=
  match b.type with
  | none => some (.parameterUntyped b.name)
  | some type =>
    if b.inferred then some (.parameterUntyped b.name)
    else if hasInit then some (.parameterWithValue b.name)
    else if type.name == "void" then some (.parameterVoid b.name)
    else none

end Binder

namespace Node

/-- Reports a defect of a node, if there is one. -/
def report (n : Node) : Option Defect → Except Fault Unit
  | none => .ok ()
  | some defect => .error (.malformed n.form.name defect n.loc)

/-- Checks the shape of a node whose children have been checked; a result is looked at only where the node demands it. -/
def checkForm (loc : Loc) (form : Form (Node × Except Fault Unit)) : Except Fault Unit :=
  let fail (defect : Defect) : Except Fault Unit := .error (.malformed form.name defect loc)
  let failIf (defect : Option Defect) : Except Fault Unit :=
    match defect with
    | some d => fail d
    | none => .ok ()
  match form with
  | .define b init => do
    failIf (b.defect? init.isSome)
    match init with
    | some (_, result) => result
    | none => .ok ()
  | .defineGlobal b init => do
    failIf (b.defect? init.isSome)
    match init with
    | some (_, result) => result
    | none => fail (.globalWithoutValue b.name)
  | .parameter (definition, _) _ =>
    match definition.form with
    | .define b init =>
      match b.parameterDefect? init.isSome with
      | some defect => fail defect
      | none => definition.report (b.defect? init.isSome)
    | _ => fail .parameterNotDefinition
  | .function (head, result) body _ =>
    match head.form with
    | .prototype .. => do
      result
      match body with
      | none => .ok ()
      | some (block, blockResult) =>
        match block.form with
        | .block _ => blockResult
        | _ => fail .bodyNotBlock
    | _ => fail .noPrototype
  -- The variable of the loop takes its value from what is walked over.
  | .forEach _ (_, iteratee) (_, body) => do
    iteratee
    body
  | form => form.children.forM (·.2)

/-- Checks the shape of a tree. -/
def check : Node → Except Fault Unit :=
  recurse checkForm

end Node

end Ember
