import Ember.IR.Arithmetic
import Ember.IR.Module
import Ember.Machine.Datum

/-!
# One step of a running program

A running program is a stack of frames over one memory. The memory has a cell for every global and gains one for every slot
that is allocated; it never shrinks. A step executes one instruction or one terminator of the topmost frame.
-/

namespace Ember

/-- Memory cells by their addresses. -/
abbrev Memory := Array Datum

/-- A function that is being executed. -/
structure Frame where
  function : IR.Function
  args : List Datum
  registers : Array Datum
  block : IR.BlockId
  /-- The block from which control came. -/
  previous : Option IR.BlockId
  /-- The instructions of the block that are still to be executed. -/
  pending : List IR.Instruction
  /-- The register of the caller that receives the result. -/
  dest : Option IR.Register

/-- The address of a global; of two with the same name the last counts. -/
def IR.Module.globalCell? (m : IR.Module) (name : String) : Option Nat :=
  (m.globals.zipIdx.reverse.find? fun (g, _) => g.name == name).map (·.2)

/-- Steps that may change memory. What a failing step did to memory stays. -/
abbrev Execution := EStateM Crash Memory

/-- The number of frames that a program may have at a time. -/
def depthLimit : Nat := 256

namespace Frame

/-- Stops because the code is not well formed. -/
def malformed {α : Type} (cause : Malformation) : Execution α :=
  throw (.malformed cause)

/-- The value of an operand. -/
def operand (m : IR.Module) (f : Frame) : IR.Value → Execution Datum
  | .register r =>
    match f.registers[r]? with
    | some d => return d
    | none => malformed (.registerOutOfRange r)
  | .constant c => return .constant c
  | .parameter i =>
    match f.args[i]? with
    | some d => return d
    | none => malformed (.parameterOutOfRange i)
  | .global name =>
    match m.globalCell? name with
    | some cell => return .pointer cell
    | none => malformed (.unknownGlobal name)
  | .function name => malformed (.functionAsValue name)
  | .undef _ => return .undef
  | .unit => return .unit

/-- The constant that an operand must be. -/
def constant (m : IR.Module) (f : Frame) (v : IR.Value) : Execution IR.Constant := do
  match ← f.operand m v with
  | .constant c => return c
  | _ => throw (.undefined f.function.name)

/-- The address that an operand must be. -/
def address (m : IR.Module) (f : Frame) (v : IR.Value) : Execution Nat := do
  match ← f.operand m v with
  | .pointer cell => if cell < (← get).size then return cell else malformed (.notAddress (.pointer cell))
  | d => malformed (.notAddress d)

/-- The result of an operation, or a crash if it has none. -/
def resultOr (crash : Crash) : Option IR.Constant → Execution Datum
  | some c => return .constant c
  | none => throw crash

/-- Sets a register. -/
def set (f : Frame) (r : IR.Register) (d : Datum) : Execution Frame :=
  if r < f.registers.size then return { f with registers := f.registers.setIfInBounds r d }
  else malformed (.registerOutOfRange r)

/-- Receives a result, if it goes anywhere. -/
def receive (f : Frame) (dest : Option IR.Register) (d : Datum) : Execution Frame :=
  match dest with
  | some r => f.set r d
  | none => return f

/-- Computes the result of an instruction; a store and a call have none of their own. -/
def compute (m : IR.Module) (f : Frame) : IR.Instruction → Execution Datum
  | .assign _ value => f.operand m value
  | .binary _ op type left right => do
    let a ← f.constant m left
    let b ← f.constant m right
    resultOr (.trap f.function.name) (op.result? type a b)
  | .compare _ pred type left right => do
    let a ← f.constant m left
    let b ← f.constant m right
    resultOr (.malformed (.incomparable a b)) (pred.result? type a b)
  | .unary _ op type value => do
    let a ← f.constant m value
    resultOr (.malformed (.inapplicable op a)) (op.result? type a)
  | .cast _ op value source target => do
    let a ← f.constant m value
    resultOr (.malformed (.inconvertible op a)) (op.result? a source target)
  | .alloca _ _ => do
    let cell := (← get).size
    modify (·.push .undef)
    return .pointer cell
  | .load _ pointer _ => do
    let cell ← f.address m pointer
    return (← get)[cell]?.getD .undef
  | .store pointer value _ => do
    let cell ← f.address m pointer
    let d ← f.operand m value
    modify (·.setIfInBounds cell d)
    return .unit
  | .phi _ _ incoming =>
    match f.previous with
    | none => malformed .phiInEntry
    | some source =>
      match incoming.find? fun (_, block) => block = source with
      | some (value, _) => f.operand m value
      | none => malformed (.noPhiEdge source)
  | .call .. => return .unit

/-- Goes to a block. -/
def enterBlock (f : Frame) (previous : Option IR.BlockId) (id : IR.BlockId) : Execution Frame :=
  match f.function.block? id with
  | some b => return { f with block := id, previous, pending := b.instructions }
  | none => malformed (.missingBlock id)

/-- Goes from the current block to another. -/
def jump (f : Frame) (id : IR.BlockId) : Execution Frame :=
  f.enterBlock (some f.block) id

/-- Whether a value lets a branch be taken. -/
def taken (f : Frame) (d : Datum) : Execution Bool :=
  match d with
  | .constant c =>
    match c.int? with
    | some n => return n != 0
    | none => throw (.undefined f.function.name)
  | _ => throw (.undefined f.function.name)

end Frame

namespace IR.Module

/-- The frame of a call, `depth` frames being there already. -/
def enter (m : Module) (name : String) (args : List Datum) (dest : Option Register) (depth : Nat) : Execution Frame :=
  match m.function? name with
  | none => throw (.unknownFunction name)
  | some function => do
    if function.isDeclaration then throw (.declaration name)
    if args.length ≠ function.params.length then
      Frame.malformed (.argumentCount name function.params.length args.length)
    if depthLimit ≤ depth then throw .stackOverflow
    let frame : Frame :=
      { function, args, registers := Array.replicate function.registers.size .undef, block := function.entry,
        previous := none, pending := [], dest }
    frame.enterBlock none function.entry

/-- What comes after a step: more frames to go on with, or the result of the last one. -/
inductive Progress where
  | running (stack : List Frame)
  | finished (result : Datum)

/-- Gives a result to the frame below, or to the outside. -/
def deliver (result : Datum) (dest : Option Register) : List Frame → Execution Progress
  | [] => return .finished result
  | caller :: rest => return .running ((← caller.receive dest result) :: rest)

/-- Executes an instruction of the topmost frame. -/
def stepInstruction (m : Module) (f : Frame) (i : Instruction) (callers : List Frame) : Execution Progress :=
  match i with
  | .call dest callee args _ => do
    let values ← args.mapM (f.operand m)
    let frame ← m.enter callee values dest (callers.length + 1)
    return .running (frame :: f :: callers)
  | i => do
    let result ← f.compute m i
    return .running ((← f.receive i.dest? result) :: callers)

/-- Executes the terminator of the current block of the topmost frame. -/
def stepTerminator (m : Module) (f : Frame) (callers : List Frame) : Execution Progress :=
  match f.function.block? f.block with
  | none => Frame.malformed (.missingBlock f.block)
  | some b =>
    match b.terminator with
    | some (.ret (some value)) => do deliver (← f.operand m value) f.dest callers
    | some (.ret none) => deliver .unit f.dest callers
    | some (.jump target) => return .running ((← f.jump target) :: callers)
    | some (.branch cond yes no) => do
      let taken ← f.taken (← f.operand m cond)
      return .running ((← f.jump (if taken then yes else no)) :: callers)
    | some .unreachable => throw (.unreachable f.function.name)
    | none => Frame.malformed (.openBlock b.label f.function.name)

/-- Executes one step. -/
def step (m : Module) : List Frame → Execution Progress
  | [] => return .finished .unit
  | f :: callers =>
    match f.pending with
    | [] => stepTerminator m f callers
    | i :: rest => stepInstruction m { f with pending := rest } i callers

end IR.Module

end Ember
