import Ember.Fault
import Ember.IR.Module

/-!
# Building functions

A module under construction, with a cursor: the function that is being built and the block to which instructions are
appended. A step that fails keeps what was done before it failed, so a register may stay without an instruction.
-/

namespace Ember.IR

/-- A module and the place where it grows. -/
structure Builder where
  module : Module
  function : Option Nat := none
  block : Option BlockId := none

/-- Building steps. -/
abbrev Build := EStateM Fault Builder

namespace Builder

/-- A builder of an empty module. -/
def named (name : String) : Builder :=
  { module := { name } }

/-- The function that is being built. -/
def currentFunction? (b : Builder) : Option Function :=
  b.function.bind fun i => b.module.functions[i]?

/-- The block to which instructions are appended. -/
def currentBlock? (b : Builder) : Option Block := do
  (← b.currentFunction?).block? (← b.block)

/-- Whether the current block has its end. -/
def isTerminated (b : Builder) : Bool :=
  b.currentBlock?.any (·.isTerminated)

end Builder

namespace Build

/-- Stops with a fault of the compiler. -/
def breach {α : Type} (cause : Breach) : Build α :=
  throw (.breach cause)

/-- The function that is being built and its position. -/
def function : Build (Nat × Function) := do
  let b ← get
  match b.function with
  | none => breach .noFunctionSelected
  | some index =>
    match b.module.functions[index]? with
    | none => breach .functionOutOfRange
    | some f => return (index, f)

/-- Puts a function in the place of another. -/
def replace (index : Nat) (f : Function) : Build Unit :=
  modify fun b => { b with module := b.module.modifyFunction index fun _ => f }

/-- The current block, with its position and its function. -/
def block : Build (Nat × Function × BlockId × Block) := do
  match (← get).block with
  | none => breach .noInsertPoint
  | some id =>
    let (index, f) ← function
    match f.block? id with
    | none => breach .blockOutOfRange
    | some b => return (index, f, id, b)

/-- The position of the function of a name, which is added if there is none. -/
def declare (name : String) (params : List (String × Ty)) (ret : Ty) : Build Nat := do
  let m := (← get).module
  match m.functionIndex? name with
  | some index => return index
  | none =>
    modify fun b => { b with module := { b.module with functions := b.module.functions ++ [{ name, params, ret }] } }
    return m.functions.length

/-- Goes on with the function at a position. -/
def enter (index : Nat) : Build Unit := do
  if (← get).module.functions.length ≤ index then breach (.noFunctionAt index)
  modify fun b => { b with function := some index, block := none }

/-- Appends an empty block. -/
def appendBlock (label : String) : Build BlockId := do
  let (index, f) ← function
  let (id, f) := f.addBlock label
  replace index f
  return id

/-- Goes on at the end of a block. -/
def moveTo (id : BlockId) : Build Unit :=
  modify fun b => { b with block := some id }

/-- Whether the current block has its end. -/
def isTerminated : Build Bool :=
  return (← get).isTerminated

/-- Appends an instruction to the current block. -/
def emit (i : Instruction) : Build Unit := do
  let (index, f, id, b) ← block
  if b.isTerminated then breach (.afterTerminator b.label)
  replace index (f.modifyBlock id fun b => { b with instructions := b.instructions ++ [i] })

/-- Ends the current block. -/
def terminate (t : Terminator) : Build Unit := do
  let (index, f, id, b) ← block
  if b.isTerminated then breach (.secondTerminator b.label)
  replace index (f.modifyBlock id fun b => { b with terminator := some t })

/-- A new register of the current function. -/
def register (type : Ty) : Build Register := do
  let (index, f) ← function
  let (r, f) := f.addRegister type
  replace index f
  return r

/-- Appends an instruction that sets a new register. -/
def define (type : Ty) (instruction : Register → Instruction) : Build Value := do
  let dest ← register type
  emit (instruction dest)
  return .register dest

def binary (op : BinaryOp) (type : Ty) (left right : Value) : Build Value :=
  define type (.binary · op type left right)

def compare (pred : Predicate) (type : Ty) (left right : Value) : Build Value :=
  define .bool (.compare · pred type left right)

def unary (op : UnaryOp) (type : Ty) (value : Value) : Build Value :=
  define type (.unary · op type value)

/-- The negative of a number. -/
def negate (type : Ty) (value : Value) : Build Value :=
  unary (if type.isFloat then .fneg else .neg) type value

/-- The complement of all bits. -/
def complement (type : Ty) (value : Value) : Build Value :=
  unary .not type value

def cast (op : CastOp) (value : Value) (source target : Ty) : Build Value :=
  define target (.cast · op value source target)

def load (type : Ty) (pointer : Value) : Build Value :=
  define type (.load · pointer type)

def store (type : Ty) (value pointer : Value) : Build Unit :=
  emit (.store pointer value type)

/-- A call; one that returns nothing has no destination. -/
def call (callee : String) (args : List Value) (ret : Ty) : Build Value := do
  if ret = .void then
    emit (.call none callee args ret)
    return .unit
  else define ret fun dest => .call (some dest) callee args ret

/-- A slot of the current function, allocated behind the other slots at the start of its entry. -/
def slot (type : Ty) : Build Value := do
  let dest ← register .ptr
  let (index, f) ← function
  match f.block? f.entry with
  | none => breach .noEntryBlock
  | some _ =>
    replace index (f.modifyBlock f.entry (·.insertAfterAllocas [.alloca dest type]))
    return .register dest

def jump (target : BlockId) : Build Unit :=
  terminate (.jump target)

def branch (cond : Value) (yes no : BlockId) : Build Unit :=
  terminate (.branch cond yes no)

def ret (value : Option Value) : Build Unit :=
  terminate (.ret value)

def unreachable : Build Unit :=
  terminate .unreachable

/-- Changes the module. -/
def modifyModule (change : Module → Module) : Build Unit :=
  modify fun b => { b with module := change b.module }

def addGlobal (g : Global) : Build Unit :=
  modifyModule fun m => { m with globals := m.globals ++ [g] }

def addImport (target : String) : Build Unit :=
  modifyModule fun m => { m with imports := m.imports ++ [target] }

def rename (name : String) : Build Unit :=
  modifyModule fun m => { m with name }

end Build

end Ember.IR
