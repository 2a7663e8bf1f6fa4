import Ember.Pass.DeadInstruction
import Std.Data.TreeMap

/-!
# Slots

A slot is local if its address is only used to load from it and to store to it. A load from a local slot becomes a copy where
the value is known: inside a block from the store or load before it, and in other blocks from a slot's only store, if that
is in the entry. A local slot that is never loaded is removed with its stores.
-/

namespace Ember.IR

/-- The operands through which an instruction gives an address away. -/
def Instruction.escaping : Instruction → List Value
  | .load .. => []
  | .store _ value _ => [value]
  | i => i.operands

/-- The slot that an instruction allocates. -/
def Instruction.slot? : Instruction → Option Register
  | .alloca dest _ => some dest
  | _ => none

/-- The register through which an instruction loads. -/
def Instruction.loadedSlot? : Instruction → Option Register
  | .load _ pointer _ => pointer.register?
  | _ => none

/-- The slot of a pointer, if it is one of these. -/
def Value.slotIn? (slots : Registers) (pointer : Value) : Option Register :=
  match pointer with
  | .register r => if slots.contains r then some r else none
  | _ => none

namespace Function

/-- The operands through which addresses are given away. -/
def escapingOperands (f : Function) : List Value :=
  f.blocks.flatMap fun b =>
    b.instructions.flatMap (·.escaping) ++
      match b.terminator with
      | some t => t.operands
      | none => []

/-- The local slots. -/
def localSlots (f : Function) : Registers :=
  let slots : Registers := (f.instructions.filterMap (·.slot?)).foldl (·.insert ·) ∅
  (f.escapingOperands.filterMap (·.register?)).foldl (·.erase ·) slots

/-- What is known to be in slots. -/
abbrev Contents := Std.TreeMap Register Value

/-- Replaces loads from local slots by copies, given what is known at the start. Tells whether any was replaced. -/
def forward (slots : Registers) : Contents → List Instruction → Bool × List Instruction
  | _, [] => (false, [])
  | known, i :: rest =>
    match i with
    | .store pointer value _ =>
      let known := match pointer.slotIn? slots with
        | some slot => known.insert slot value
        | none => known
      let (changed, rest) := forward slots known rest
      (changed, i :: rest)
    | .load dest pointer _ =>
      match pointer.slotIn? slots with
      | none =>
        let (changed, rest) := forward slots known rest
        (changed, i :: rest)
      | some slot =>
        match known[slot]? with
        | some value => (true, .assign dest value :: (forward slots known rest).2)
        | none =>
          let (changed, rest) := forward slots (known.insert slot (.register dest)) rest
          (changed, i :: rest)
    | _ =>
      let (changed, rest) := forward slots known rest
      (changed, i :: rest)

/-- Forwards inside every block. -/
def forwardInBlocks (slots : Registers) (f : Function) : Bool × Function :=
  let results := f.blocks.map fun b => (forward slots ∅ b.instructions, b)
  (results.any (·.1.1), { f with blocks := results.map fun (r, b) => { b with instructions := r.2 } })

/-- The stores of a block to local slots. -/
def storesOf (slots : Registers) (b : Block) : List (Register × Value) :=
  b.instructions.filterMap fun
    | .store pointer value _ => (pointer.slotIn? slots).map (·, value)
    | _ => none

/-- Counts a store to a slot, and keeps its value if it is in the entry. -/
def countStore (isEntry : Bool) (stores : Std.TreeMap Register (Nat × Option Value)) (store : Register × Value) :
    Std.TreeMap Register (Nat × Option Value) :=
  let (count, value) := stores[store.1]?.getD (0, none)
  stores.insert store.1 (count + 1, if isEntry then some store.2 else value)

/-- For every slot that is stored to, how often, and the last value stored in the entry. -/
def storeCounts (slots : Registers) (f : Function) : Std.TreeMap Register (Nat × Option Value) :=
  f.blocks.foldl (fun stores b => (storesOf slots b).foldl (countStore (b.id = f.entry)) stores) ∅

/-- The value of a slot that is stored to once, in the entry. -/
def singleStore? (counts : Std.TreeMap Register (Nat × Option Value)) (slot : Register) : Option Value :=
  match counts[slot]? with
  | some (1, value) => value
  | _ => none

/-- A copy in the place of a load from a slot with a known value. -/
def loadCopy? (slots : Registers) (value : Register → Option Value) : Instruction → Option Instruction
  | .load dest pointer _ => (pointer.slotIn? slots).bind fun slot => (value slot).map (.assign dest ·)
  | _ => none

/-- Forwards the only store of a slot to the loads outside the entry. -/
def forwardFromEntry (slots : Registers) (f : Function) : Bool × Function :=
  let counts := storeCounts slots f
  let rule := loadCopy? slots (singleStore? counts)
  let outside := f.blocks.filter (·.id ≠ f.entry)
  (outside.any fun b => b.instructions.any fun i => (rule i).isSome,
    { f with blocks := f.blocks.map fun b =>
        if b.id = f.entry then b else b.mapInstructions fun i => (rule i).getD i })

/-- Replaces loads from local slots by copies of what they load. -/
def forwardStores (f : Function) : Bool × Function :=
  let slots := f.localSlots
  let (inBlocks, f) := forwardInBlocks slots f
  let (fromEntry, f) := forwardFromEntry slots f
  (inBlocks || fromEntry, f)

/-- The local slots that are never loaded. -/
def deadSlots (f : Function) : Registers :=
  (f.instructions.filterMap (·.loadedSlot?)).foldl (·.erase ·) f.localSlots

/-- Whether an instruction has nothing to do with these slots. -/
def sparesSlots (dead : Registers) : Instruction → Bool
  | .alloca dest _ => !dead.contains dest
  | .store pointer _ _ => (pointer.slotIn? dead).isNone
  | _ => true

/-- Removes the local slots that are never loaded, with their stores. -/
def removeDeadSlots (f : Function) : Bool × Function :=
  let dead := f.deadSlots
  (!dead.isEmpty, f.filterInstructions (sparesSlots dead))

end Function

end Ember.IR
