import Ember.IR.Instruction

/-!
# Blocks, functions, modules

A function is a list of blocks, named by numbers, with a table of the types of its registers. A module is a list of
functions and globals.
-/

namespace Ember.IR

/-- A labelled row of instructions. Its end is missing while it is being built. -/
structure Block where
  /-- The name of the block in its function: its position. -/
  protected id : BlockId
  label : String
  instructions : List Instruction := []
  terminator : Option Terminator := none
deriving DecidableEq, Repr

namespace Block

def isTerminated (b : Block) : Bool :=
  b.terminator.isSome

/-- The blocks that may follow. -/
def successors (b : Block) : List BlockId :=
  match b.terminator with
  | some t => t.successors
  | none => []

/-- The operands of all instructions, then those of the terminator. -/
def operands (b : Block) : List Value :=
  b.instructions.flatMap (·.operands) ++
    match b.terminator with
    | some t => t.operands
    | none => []

/-- Changes every instruction. -/
def mapInstructions (f : Instruction → Instruction) (b : Block) : Block :=
  { b with instructions := b.instructions.map f }

/-- Changes every operand. -/
def mapOperands (f : Value → Value) (b : Block) : Block :=
  { b with
    instructions := b.instructions.map (·.mapOperands f)
    terminator := b.terminator.map (·.mapOperands f) }

/-- Places instructions behind the allocas with which the block begins. -/
def insertAfterAllocas (b : Block) (added : List Instruction) : Block :=
  let allocas := b.instructions.takeWhile (·.isAlloca)
  { b with instructions := allocas ++ added ++ b.instructions.drop allocas.length }

end Block

/-- Where a function was written, and the types of its result and parameters, for a debugger. -/
structure Subprogram where
  file : String
  line : Nat
  types : List String
deriving DecidableEq, Repr

/-- A function. Without blocks it is only declared. -/
structure Function where
  name : String
  /-- The symbol that encodes name and type. -/
  mangled : String := ""
  params : List (String × Ty)
  ret : Ty
  blocks : List Block := []
  entry : BlockId := 0
  /-- The type of every register. -/
  registers : Array Ty := #[]
  /-- Whether every call is to be replaced by the body. -/
  alwaysInline : Bool := false
  debug : Option Subprogram := none
deriving DecidableEq, Repr

namespace Function

def isDeclaration (f : Function) : Bool :=
  f.blocks.isEmpty

def block? (f : Function) (id : BlockId) : Option Block :=
  f.blocks[id]?

/-- Changes one block. -/
def modifyBlock (f : Function) (id : BlockId) (change : Block → Block) : Function :=
  { f with blocks := f.blocks.modify id change }

def labels (f : Function) : List String :=
  f.blocks.map (·.label)

/-- All instructions, block after block. -/
def instructions (f : Function) : List Instruction :=
  f.blocks.flatMap (·.instructions)

/-- The operands of all blocks. -/
def operands (f : Function) : List Value :=
  f.blocks.flatMap (·.operands)

/-- Looks for a free label among `base.n`, `base.(n + 1)` and so on. -/
def numberedLabel (taken : List String) (base : String) : (fuel n : Nat) → String
  | 0, n => base ++ "." ++ toString n
  | fuel + 1, n =>
    let label := base ++ "." ++ toString n
    if taken.contains label then numberedLabel taken base fuel (n + 1) else label

/-- A label that no block has: the given one, or else the given one with the least number that makes it free. -/
def freeLabel (taken : List String) (base : String) : String :=
  if taken.contains base then numberedLabel taken base taken.length 1 else base

/-- Appends an empty block. -/
def addBlock (f : Function) (label : String) : BlockId × Function :=
  (f.blocks.length, { f with blocks := f.blocks ++ [{ id := f.blocks.length, label := freeLabel f.labels label }] })

/-- Adds a register of a type. -/
def addRegister (f : Function) (type : Ty) : Register × Function :=
  (f.registers.size, { f with registers := f.registers.push type })

def registerType? (f : Function) (r : Register) : Option Ty :=
  f.registers[r]?

/-- The type of a value, as seen from inside the function. -/
def valueType? (f : Function) : Value → Option Ty
  | .register r => f.registerType? r
  | .parameter i => f.params[i]?.map (·.2)
  | .global _ => some .ptr
  | .function _ => some .ptr
  | .constant c => some c.naturalType
  | .undef t => some t
  | .unit => some .void

/-- For every block, whether it is the entry or some terminator leads to it. -/
def targeted (f : Function) : List Bool :=
  let targets := f.entry :: f.blocks.flatMap (·.successors)
  (List.range f.blocks.length).map fun id => targets.contains id

/-- The number of instructions, terminators included. -/
def size (f : Function) : Nat :=
  f.blocks.foldr (fun b n => b.instructions.length + 1 + n) 0

end Function

/-- A variable of the module, with its initial value. -/
structure Global where
  name : String
  type : Ty
  init : Constant
  mutable : Bool
deriving DecidableEq, Repr

/-- What one source file becomes. -/
structure Module where
  name : String
  /-- The path of the source; empty if there is none. -/
  source : String := ""
  functions : List Function := []
  globals : List Global := []
  imports : List String := []
deriving DecidableEq, Repr

namespace Module

def functionIndex? (m : Module) (name : String) : Option Nat :=
  m.functions.findIdx? (·.name == name)

def function? (m : Module) (name : String) : Option Function :=
  m.functions.find? (·.name == name)

def global? (m : Module) (name : String) : Option Global :=
  m.globals.find? (·.name == name)

/-- Changes the function at a position. -/
def modifyFunction (m : Module) (index : Nat) (change : Function → Function) : Module :=
  { m with functions := m.functions.modify index change }

end Module

end Ember.IR
