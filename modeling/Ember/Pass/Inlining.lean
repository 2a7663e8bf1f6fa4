import Ember.Journal
import Ember.Pass.Change

/-!
# Inlining

A call is replaced by a copy of the body of its callee: the block is split behind the call, the returns of the copy jump to
the second part, and the result of the call becomes a phi there. Slots of the callee are allocated at the start of the
caller.
-/

namespace Ember.IR

/-- A call, as inlining sees it. -/
structure Site where
  block : BlockId
  /-- The position of the call in its block. -/
  index : Nat
  callee : String

/-- The callee of a call. -/
def Instruction.callee? : Instruction → Option String
  | .call _ callee _ _ => some callee
  | _ => none

namespace Function

/-- Whether a function calls itself directly. -/
def callsItself (f : Function) : Bool :=
  f.instructions.any fun i => i.callee? == some f.name

/-- The first call of another function that a test accepts. -/
def site? (f : Function) (eligible : String → Bool) : Option Site :=
  f.blocks.findSome? fun b =>
    b.instructions.zipIdx.findSome? fun (i, index) =>
      match i.callee? with
      | some callee => if callee != f.name && eligible callee then some { block := b.id, index, callee } else none
      | none => none

/-- How a copy of a callee names things in the caller. -/
structure Transplant where
  /-- The number of registers of the callee, and the first register of the copy. -/
  registers : Nat
  firstRegister : Register
  firstBlock : BlockId
  args : List Value
  /-- The block behind the call. -/
  next : BlockId

namespace Transplant

def value (t : Transplant) : Value → Value
  | .register r => if r < t.registers then .register (t.firstRegister + r) else .undef .void
  | .parameter i => t.args[i]?.getD (.undef .void)
  | v => v

def instruction (t : Transplant) (i : Instruction) : Instruction :=
  ((i.mapOperands t.value).mapDest (t.firstRegister + ·)).mapIncoming
    (·.map fun (value, source) => (value, t.firstBlock + source))

/-- Returns jump to the block behind the call. -/
def terminator (t : Transplant) : Option Terminator → Terminator
  | none => .unreachable
  | some (.ret _) => .jump t.next
  | some term => (term.mapOperands t.value).mapTargets (t.firstBlock + ·)

/-- The value that a block of the copy brings to the block behind the call. -/
def returned? (t : Transplant) (id : BlockId) (b : Block) : Option (Value × BlockId) :=
  match b.terminator with
  | some (.ret (some value)) => some (t.value value, t.firstBlock + id)
  | _ => none

end Transplant

/-- Appends empty blocks. -/
def addBlocks (f : Function) (labels : List String) : Function :=
  labels.foldl (fun f label => (f.addBlock label).2) f

/-- The instruction that brings the result of an inlined call to its destination. -/
def resultOf (dest : Register) (type : Ty) : List (Value × BlockId) → Instruction
  | [(value, _)] => .assign dest value
  | returns => .phi dest type returns

/-- Replaces a call by a copy of the body of its callee. -/
def inlineCall (f : Function) (site : Site) (callee : Function) : Option Function :=
  match f.block? site.block with
  | none => none
  | some b =>
    match b.instructions[site.index]? with
    | some (.call dest _ args ret) =>
      let f := f.modifyBlock site.block fun b =>
        { b with instructions := b.instructions.take site.index, terminator := none }
      let (next, f) := f.addBlock (callee.name ++ ".cont")
      let f := f.modifyBlock next fun c =>
        { c with instructions := b.instructions.drop (site.index + 1), terminator := b.terminator }
      let f := b.successors.foldl (·.renamePhiSource · site.block next) f
      let t : Transplant :=
        { registers := callee.registers.size, firstRegister := f.registers.size, firstBlock := f.blocks.length, args, next }
      let f := f.addBlocks (callee.blocks.map fun b => callee.name ++ "." ++ b.label)
      let f := { f with registers := f.registers ++ callee.registers }
      let f := callee.blocks.zipIdx.foldl (fun f (b, id) =>
        f.modifyBlock (t.firstBlock + id) fun c =>
          { c with
            instructions := (b.instructions.filter fun i => !i.isAlloca).map t.instruction
            terminator := some (t.terminator b.terminator) }) f
      let returns := callee.blocks.zipIdx.filterMap fun (b, id) => t.returned? id b
      let f := match dest with
        | some dest => f.modifyBlock next fun c => { c with instructions := resultOf dest ret returns :: c.instructions }
        | none => f
      let slots := (callee.instructions.filter (·.isAlloca)).map t.instruction
      let f := f.modifyBlock f.entry (·.insertAfterAllocas slots)
      some (f.modifyBlock site.block fun b => { b with terminator := some (.jump (t.firstBlock + callee.entry)) })
    | _ => none

end Function

/-- The number of calls that are inlined in one function, so that functions that call each other come to an end. -/
def inlineLimit : Nat := 32

namespace Module

/-- The functions that may be inlined: those with a body that do not call themselves and that a test accepts. -/
def inlinable (m : Module) (eligible : Function → Bool) : List String :=
  (m.functions.filter fun f => !f.isDeclaration && !f.callsItself && eligible f).map (·.name)

/-- Inlines one call in the function at a position. -/
def inlineOnce? (m : Module) (candidates : List String) (index : Nat) : Option (Module × Event) := do
  let caller ← m.functions[index]?
  let site ← caller.site? candidates.contains
  let callee ← m.function? site.callee
  let inlined ← caller.inlineCall site callee
  return (m.modifyFunction index fun _ => inlined, .inlined site.callee caller.name)

/-- Inlines at most `fuel` calls in the function at a position. -/
def inlineInto (candidates : List String) (index : Nat) : (fuel : Nat) → Module → Module × Journal
  | 0, m => (m, [])
  | fuel + 1, m =>
    match m.inlineOnce? candidates index with
    | none => (m, [])
    | some (m, event) =>
      let (m, journal) := inlineInto candidates index fuel m
      (m, event :: journal)

/-- Inlines the calls of functions that a test accepts, in one function after the other. -/
def inlineCalls (eligible : Function → Bool) (m : Module) : Module × Journal :=
  let candidates := m.inlinable eligible
  (List.range m.functions.length).foldl (fun (m, journal) index =>
    let (m, added) := inlineInto candidates index inlineLimit m
    (m, journal ++ added)) (m, [])

/-- The functions that some instruction names. -/
def referenced (m : Module) : List String :=
  (m.functions.flatMap (·.instructions)).flatMap fun i =>
    i.callee?.toList ++ i.operands.filterMap fun
      | .function name => some name
      | _ => none

/-- Removes the functions without a body that nothing names. -/
def removeUnused (m : Module) : Bool × Module :=
  let names := m.referenced
  let kept := m.functions.filter fun f => !f.isDeclaration || names.contains f.name
  (kept.length ≠ m.functions.length, { m with functions := kept })

end Module

end Ember.IR
