import Ember.Pass.Change

/-!
# Control flow

Branches that always go the same way become jumps, blocks that are never reached are removed, and a block is joined to the
only block that jumps to it.
-/

namespace Ember.IR

/-- Where a branch always goes, and the target that it never takes, if that is another one. -/
def Terminator.settled? : Terminator → Option (BlockId × Option BlockId)
  | .branch cond yes no =>
    if yes = no then some (yes, none)
    else
      match cond.constant?.bind (·.int?) with
      | some 0 => some (no, some yes)
      | some _ => some (yes, some no)
      | none => none
  | _ => none

/-- Where a block always goes by a branch, and the target that it never takes. -/
def Block.settled? (b : Block) : Option (BlockId × Option BlockId) :=
  b.terminator.bind (·.settled?)

/-- A block that ends with a jump if its branch always goes the same way. -/
def Block.straightened (b : Block) : Block :=
  match b.settled? with
  | some (taken, _) => { b with terminator := some (.jump taken) }
  | none => b

namespace Function

/-- The edges that branches never take: from where, to where. -/
def untakenEdges (f : Function) : List (BlockId × BlockId) :=
  f.blocks.filterMap fun b =>
    match b.settled? with
    | some (_, some untaken) => some (b.id, untaken)
    | _ => none

/-- Removes the phi edges of a block that come from another. -/
def removePhiEdge (f : Function) (edge : BlockId × BlockId) : Function :=
  f.modifyBlock edge.2 (·.mapInstructions (·.mapIncoming (·.filter fun (_, source) => source ≠ edge.1)))

/-- Turns branches that always go the same way into jumps. -/
def simplifyBranches (f : Function) : Bool × Function :=
  (f.blocks.any (·.settled?.isSome), f.untakenEdges.foldl removePhiEdge (f.mapBlocks (·.straightened)))

/-- The blocks that are reached from a list of blocks, behind those reached before. Every block is entered once, so `fuel` of
the number of edges suffices. -/
def reach (f : Function) : (fuel : Nat) → (work seen : List BlockId) → List BlockId
  | 0, _, seen => seen
  | _, [], seen => seen
  | fuel + 1, id :: work, seen =>
    match f.block? id with
    | none => reach f fuel work seen
    | some b => if seen.contains id then reach f fuel work seen else reach f fuel (b.successors.reverse ++ work) (id :: seen)

/-- For every block, whether it is reached from the entry. -/
def reachable (f : Function) : List Bool :=
  let edges := f.blocks.foldr (fun b n => b.successors.length + n) 0
  let seen := f.reach (edges + 1) [f.entry] []
  (List.range f.blocks.length).map seen.contains

/-- The number of a block among those that are kept. -/
def renumber? (kept : List Bool) (id : BlockId) : Option BlockId :=
  match kept[id]? with
  | some true => some ((kept.take id).count true)
  | _ => none

/-- Renumbers a block, its targets and its phi edges; edges from blocks that are not kept are dropped. -/
def renumberBlock (kept : List Bool) (id : BlockId) (b : Block) : Block :=
  { b with
    id
    instructions := b.instructions.map (·.mapIncoming (·.filterMap fun (value, source) =>
      (renumber? kept source).map (value, ·)))
    terminator := b.terminator.map (·.mapTargets fun target => (renumber? kept target).getD target) }

/-- Removes the blocks that are never reached. -/
def removeUnreachable (f : Function) : Bool × Function :=
  let kept := f.reachable
  if kept.all id then (false, f)
  else
    let blocks := ((f.blocks.zip kept).filter (·.2)).map (·.1)
    (true, { f with blocks := blocks.mapIdx (renumberBlock kept), entry := (renumber? kept f.entry).getD 0 })

/-- The number of edges that lead to a block. -/
def edgesTo (f : Function) (target : BlockId) : Nat :=
  (f.blocks.flatMap (·.successors)).count target

/-- The first block that jumps to another to which no other edge leads, and that other one. The entry is never joined. -/
def joinable? (f : Function) : Option (BlockId × BlockId) :=
  f.blocks.findSome? fun b =>
    match b.terminator with
    | some (.jump target) =>
      if target < f.blocks.length && f.edgesTo target == 1 && target != b.id && target != f.entry then some (b.id, target)
      else none
    | _ => none

/-- The only edge into a block makes every phi a copy. -/
def copyOfPhi : Instruction → Instruction
  | .phi dest _ incoming => .assign dest ((incoming.head?.map (·.1)).getD .unit)
  | i => i

/-- Joins a block to the one that jumps to it, and leaves it empty. -/
def join (f : Function) (first second : BlockId) : Function :=
  match f.block? second with
  | none => f
  | some b =>
    let f := f.modifyBlock second fun b => { b with instructions := [], terminator := some .unreachable }
    let f := f.modifyBlock first fun a =>
      { a with instructions := a.instructions ++ b.instructions.map copyOfPhi, terminator := b.terminator }
    b.successors.foldl (·.renamePhiSource · second first) f

/-- Joins blocks, at most `fuel` times. -/
def joinWithin : (fuel : Nat) → Function → Function
  | 0, f => f
  | fuel + 1, f =>
    match f.joinable? with
    | some (first, second) => joinWithin fuel (f.join first second)
    | none => f

/-- Joins blocks to the only block that jumps to them. Every step leaves one jump less, so the number of blocks bounds the
steps. -/
def mergeBlocks (f : Function) : Bool × Function :=
  (f.joinable?.isSome, f.joinWithin f.blocks.length)

end Function

end Ember.IR
