import Ember.Fault
import Ember.IR.Module

/-!
# Well-formed functions

A check of what every later stage relies on: each register is set once and has a type, each operand exists, each branch leads
to a block, each call fits its callee, and each block ends. What fails is a fault of the compiler, not of the source.
-/

namespace Ember.IR

namespace Function

/-- The registers that a row of instructions sets, behind those set before it. Each must have a type and be new. -/
def collectDefined (f : Function) : (seen : List Register) → List Instruction → Except Flaw (List Register)
  | seen, [] => .ok seen
  | seen, i :: rest =>
    match i.dest? with
    | none => collectDefined f seen rest
    | some r =>
      if f.registers.size ≤ r then .error (.untypedRegister r)
      else if seen.contains r then .error (.definedTwice r)
      else collectDefined f (r :: seen) rest

/-- An operand must exist. -/
def checkValue (m : Module) (f : Function) (defined : List Register) : Value → Except Flaw Unit
  | .register r => if defined.contains r then .ok () else .error (.undefinedRegister r)
  | .parameter i => if i < f.params.length then .ok () else .error (.missingParameter i)
  | .global name => if (m.global? name).isSome then .ok () else .error (.unknownGlobal name)
  | _ => .ok ()

/-- A target must be a block of the function. -/
def checkTarget (f : Function) (label : String) (target : BlockId) : Except Flaw Unit :=
  if target < f.blocks.length then .ok () else .error (.missingTarget label target)

/-- A call must fit a function of the module; the edges of a phi must start at blocks. -/
def checkInstruction (m : Module) (f : Function) (defined : List Register) (label : String) (i : Instruction) :
    Except Flaw Unit := do
  i.operands.forM (checkValue m f defined)
  match i with
  | .call dest callee args _ =>
    match m.function? callee with
    | none => throw (.unknownCallee callee)
    | some g =>
      if g.params.length ≠ args.length then throw (.argumentCount callee args.length g.params.length)
      if dest.isSome = (g.ret = .void) then throw (.mismatchedResult callee)
  | .phi _ _ incoming => incoming.forM fun (_, source) => checkTarget f label source
  | _ => return ()

/-- A terminator must have existing operands and targets, and return a value exactly if the function does. -/
def checkTerminator (m : Module) (f : Function) (defined : List Register) (label : String) (t : Terminator) :
    Except Flaw Unit := do
  t.operands.forM (checkValue m f defined)
  t.successors.forM (checkTarget f label)
  match t with
  | .ret value => if value.isNone ≠ (f.ret = .void) then throw (.mismatchedReturn label f.ret)
  | _ => return ()

/-- The checks of one block. -/
def checkBlock (m : Module) (f : Function) (defined : List Register) (b : Block) : Except Flaw Unit := do
  b.instructions.forM (checkInstruction m f defined b.label)
  match b.terminator with
  | none => throw (.notTerminated b.label)
  | some t => checkTerminator m f defined b.label t

/-- The first flaw of a function; a declaration has none. -/
def check (m : Module) (f : Function) : Except Flaw Unit :=
  if f.isDeclaration then .ok ()
  else do
    if f.blocks.length ≤ f.entry then throw .noEntry
    let defined ← f.collectDefined [] f.instructions
    f.blocks.forM (checkBlock m f defined)

end Function

namespace Module

/-- The first flaw of a module, as a fault. -/
def check (m : Module) : Except Fault Unit :=
  m.functions.forM fun f =>
    match f.check m with
    | .ok () => .ok ()
    | .error what => .error (.breach (.flaw f.name what))

end Module

end Ember.IR
