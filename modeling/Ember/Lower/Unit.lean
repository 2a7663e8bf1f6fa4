import Ember.Lower.Statement
import Ember.Source.File

/-!
# Lowering a unit

A unit is lowered twice: first every item is declared, then every function gets its body, so that functions may be used
before they are written.
-/

namespace Ember

namespace Lowering

/-- Declares a global. Its initial value must be a constant. -/
def global (binder : Binder) (init : Option Node) (loc : Loc) : Lowering Unit := do
  checkNotReserved binder.name loc
  match init with
  | none => throw (.malformed "GlobalVariableDefinition" (.globalWithoutValue binder.name) loc)
  | some n =>
    let x ← constant n
    let declared ← match binder.type with
      | some written => if binder.inferred then pure x.type else resolve written
      | none => pure x.type
    let type ← immutableOf declared
    checkSized type loc
    match (← coerce x type loc).value with
    | .constant c =>
      let declared ← if binder.mutable then mutableOf type else pure type
      bind { name := binder.name, operand := .place declared (.global binder.name) binder.mutable, loc, isFunction := false }
      build (.addGlobal { name := binder.name, type := ← irOf type, init := c, mutable := binder.mutable })
    | _ => throw (.unsupported .initializer (.type (← nameOf type)) loc)

/-- The parts of a parameter. -/
def parameterParts : Node → Lowering (Binder × PassMode)
  | ⟨_, .parameter ⟨_, .define binder _⟩ mode⟩ => return (binder, mode)
  | ⟨_, .parameter _ _⟩ => breach .parameterNotDefinition
  | _ => breach .notParameter

/-- The name, the type and the pass mode of a parameter. -/
def parameterType (n : Node) : Lowering (String × TypeId × PassMode) := do
  let (binder, mode) ← parameterParts n
  match binder.type with
  | none => throw (.malformed "FunctionParameter" (.parameterUntyped binder.name) n.loc)
  | some written =>
    let type ← immutableOf (← resolve written)
    checkSized type n.loc
    return (binder.name, type, mode)

/-- The types of a function's result and parameters, for a debugger. -/
def debugTypes (type : TypeId) : Lowering (List String) := do
  let t ← typesWith [type]
  match (t.entry type).signature? with
  | none => return []
  | some s =>
    let _ ← typesWith (s.ret :: s.params.map (·.1))
    return (s.ret :: s.params.map (·.1)).map fun id =>
      match (t.entry id).debug with
      | some debug => debug.text
      | none => t.nameOf id

/-- Declares a function that was not declared before. -/
def newFunction (name : String) (params : List (String × IR.Ty)) (ret : IR.Ty) (type : TypeId) (inlined : Bool)
    (loc : Loc) : Lowering Unit := do
  checkNotReserved name loc
  let index ← build (.declare name params ret)
  let t ← typesWith [type]
  let debug ← if t.debugInfo then
      pure (some { file := (← get).builder.module.source, line := loc.line, types := ← debugTypes type })
    else pure none
  build (.modifyModule (·.modifyFunction index fun f =>
    { f with mangled := t.symbolOf name type, alwaysInline := inlined, debug }))
  bind { name, operand := { type, value := .function name }, loc, isFunction := true }
  note (.declared name (t.nameOf type))

/-- Declares a function. It may be declared again with the same type, and once inlined it stays so. -/
def prototype : Node → Lowering Unit
  | ⟨loc, .prototype name returns params inlined⟩ => do
    let ret ← immutableOf (← resolve returns)
    let params ← params.mapM parameterType
    let t ← typesWith (ret :: params.map (·.2.1))
    let irParams := params.map fun (name, type, mode) => (name, t.parameterIR type mode)
    let type ← onTypes (·.function ⟨ret, params.map (·.2)⟩)
    match ← lookup? name with
    | none => newFunction name irParams (← irOf ret) type inlined loc
    | some symbol =>
      if !symbol.isFunction then throw (.redefined name loc)
      if symbol.operand.type ≠ type then mismatch (.type (← nameOf symbol.operand.type)) type loc
      if inlined then
        build (.modifyModule fun m =>
          match m.functionIndex? name with
          | some index => m.modifyFunction index fun f => { f with alwaysInline := true }
          | none => m)
  | _ => breach .noPrototype

/-- Gives a parameter a place: the address that comes in, or a slot of its own. -/
def parameter (index : Nat) (n : Node) (type : TypeId) (mode : PassMode) : Lowering Unit := do
  let (binder, _) ← parameterParts n
  checkNotReserved binder.name n.loc
  let operand ← do
    if mode = .ref then pure (Operand.place (← mutableOf type) (.parameter index) true)
    else
      let mutable : Bool := mode = .copy && binder.mutable
      let ir ← irOf type
      let slot ← build (.slot ir)
      build (.store ir (.parameter index) slot)
      let type ← if mutable then mutableOf type else pure type
      pure (Operand.place type slot mutable)
  bind { name := binder.name, operand, loc := n.loc, isFunction := false }

/-- Gives parameters their places, one after the other. -/
def parameterList : (index : Nat) → List Node → List (TypeId × PassMode) → Lowering Unit
  | index, n :: ns, (type, mode) :: rest => do
    parameter index n type mode
    parameterList (index + 1) ns rest
  | _, _, _ => return ()

/-- Whether the current block is the entry, or some branch leads to it. -/
def isReachable : Lowering Bool := do
  let b := (← get).builder
  match b.currentFunction?, b.block with
  | some f, some id => return f.targeted[id]?.getD false
  | _, _ => return false

/-- Ends a function whose last block is open: nothing is returned if there is nothing to return; else the block must be one
that is never reached. -/
def finish (name : String) (ret : TypeId) (loc : Loc) : Lowering Unit := do
  if ← build .isTerminated then return ()
  if (← typesWith [ret]).isVoid ret then build (.ret none)
  else if ← isReachable then throw (.missingReturn name loc)
  else build .unreachable

/-- Lowers the body of a declared function. A function has one body. -/
def body (head body : Node) : Lowering Unit :=
  match head with
  | ⟨loc, .prototype name _ params _⟩ => do
    if (← get).defined.contains name then throw (.redefined name loc)
    modify fun w => { w with defined := name :: w.defined }
    let callee ← lookup name loc
    match ((← typesWith [callee.type]).entry callee.type).signature? with
    | none => breach (.notFunctionType name)
    | some signature =>
      match (← get).builder.module.functionIndex? name with
      | none => breach (.neverDeclared name)
      | some index =>
        build (.enter index)
        build (.moveTo (← build (.appendBlock "entry")))
        modify fun w => { w with returns := some signature.ret }
        enterScope
        parameterList 0 params signature.params
        statement body
        finish name signature.ret loc
        leaveScope
        modify fun w => { w with returns := none }
  | _ => breach .noPrototype

/-- Declares an item. -/
def declaration : Node → Lowering Unit
  | ⟨_, .nameUnit name⟩ => build (.rename name)
  | ⟨loc, .importUnit target _ _⟩ => do
    note (.imported target loc)
    build (.addImport target)
  | ⟨loc, .alias name target⟩ => do
    let target ← resolve target
    let _ ← typesWith [target]
    discard (tryTypes (·.addAlias name target loc))
  | ⟨loc, .defineGlobal binder init⟩ => global binder init loc
  | ⟨_, .function head _ _⟩ => prototype head
  | ⟨_, .empty⟩ => return ()
  | ⟨loc, form⟩ => throw (.unsupported (.form form.name) .globalScope loc)

/-- Lowers the body of an item, if it has one. -/
def definition : Node → Lowering Unit
  | ⟨_, .function head (some b) _⟩ => body head b
  | _ => return ()

/-- Lowers a unit. -/
def unit (n : Node) : Lowering Unit := do
  n.items.forM declaration
  n.items.forM definition

end Lowering

/-- A workspace for a source file. -/
def SourceFile.workspace (file : SourceFile) (debugInfo : Bool) : Workspace :=
  { types := .initial debugInfo, builder := { module := { name := file.stem, source := file.path } } }

/-- Lowers the tree of a source file. The journal tells what was noted, also if lowering fails. -/
def Node.lower (n : Node) (file : SourceFile) (debugInfo : Bool) : Except Fault IR.Module × Journal :=
  match (Lowering.unit n).run (file.workspace debugInfo) with
  | .ok () w => (.ok w.builder.module, w.journal)
  | .error f w => (.error f, w.journal)

end Ember
