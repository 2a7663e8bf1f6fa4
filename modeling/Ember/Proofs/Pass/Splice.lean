import Ember.Proofs.Pass.Joining
import Mathlib.Tactic.SplitIfs

/-!
# The parts of an inlined call

Inlining changes a function in many small steps. `Spliced` says what comes of them: the blocks of the caller, with the call cut out of
its block and the slots of the callee allocated at the start; the block behind the call; and a copy of every block of the callee.
-/

namespace Ember.IR

/-- A call, with what stands around it in its block. -/
structure Splice where
  block : BlockId
  before : List Instruction
  dest : Option Register
  args : List Value
  ret : Ty
  after : List Instruction
  terminator : Option Terminator

/-- The copy of the instructions of a block: the slots are allocated elsewhere. -/
abbrev Function.Transplant.copy (t : Function.Transplant) (l : List Instruction) : List Instruction :=
  (l.filter fun i => !i.isAlloca).map t.instruction

namespace Splice

variable (s : Splice) (f callee : Function)

/-- How the copy of the callee names things. -/
def transplant : Function.Transplant where
  registers := callee.registers.size
  firstRegister := f.registers.size
  firstBlock := f.blocks.length + 1
  args := s.args
  next := f.blocks.length

/-- The blocks that may follow the block of the call. -/
def successors : List BlockId :=
  Block.successors { id := s.block, label := "", terminator := s.terminator }

/-- How the edges of phis change: what came from the block of the call comes from the block behind it. -/
def edges (x : BlockId) : List (Value × BlockId) → List (Value × BlockId) :=
  if x ∈ s.successors then
    List.map fun (value, source) => (value, if source = s.block then f.blocks.length else source)
  else id

/-- What is left of the instructions of a block of the caller. -/
def own (x : BlockId) (X : Block) : List Instruction :=
  (if x = s.block then s.before else X.instructions).map (·.mapIncoming (s.edges f x))

/-- The slots of the copy. -/
def slots : List Instruction :=
  (callee.instructions.filter (·.isAlloca)).map (s.transplant f callee).instruction

/-- What becomes of a block of the caller. -/
def ownBlock (x : BlockId) (X : Block) : Block :=
  { X with
    instructions := (s.own f x X).takeWhile (·.isAlloca) ++ (if x = f.entry then s.slots f callee else []) ++
      (s.own f x X).dropWhile (·.isAlloca)
    terminator := if x = s.block then some (.jump (f.blocks.length + 1 + callee.entry)) else X.terminator }

/-- The values that the copy brings to the block behind the call, and from where. -/
def returns : List (Value × BlockId) :=
  callee.blocks.zipIdx.filterMap fun (b, id) => (s.transplant f callee).returned? id b

/-- What brings the result of the call to its destination, given what the copy returns. -/
def bring (returns : List (Value × BlockId)) : List Instruction :=
  match s.dest with
  | some dest => [Function.resultOf dest s.ret returns]
  | none => []

/-- What brings the result of the call to its destination. -/
def result : List Instruction :=
  s.bring (s.returns f callee)

end Splice

namespace Function

variable {f callee f' : Function} {s : Splice} {site : Site} {b : Block}

/-- The caller `f` after its call has been replaced by a copy of the callee. -/
structure Spliced (f callee : Function) (s : Splice) (f' : Function) : Prop where
  name : f'.name = f.name
  params : f'.params = f.params
  ret : f'.ret = f.ret
  entry : f'.entry = f.entry
  registers : f'.registers = f.registers ++ callee.registers
  length : f'.blocks.length = f.blocks.length + 1 + callee.blocks.length
  labels : f.labels.Nodup → f'.labels.Nodup
  own : ∀ x X, f.block? x = some X → f'.block? x = some (s.ownBlock f callee x X)
  next : ∃ label, f'.block? f.blocks.length = some
    { id := f.blocks.length, label, instructions := s.result f callee ++ s.after, terminator := s.terminator }
  copied : ∀ j C, callee.block? j = some C → ∃ label, f'.block? (f.blocks.length + 1 + j) = some
    { id := f.blocks.length + 1 + j
      label
      instructions := (C.instructions.filter fun i => !i.isAlloca).map (s.transplant f callee).instruction
      terminator := some ((s.transplant f callee).terminator C.terminator) }

/-! ## The steps -/

/-- Adding blocks: they are numbered on, and keep labels apart. -/
theorem addBlocks_eq (f : Function) (labels : List String) : ∃ new : List Block,
    f.addBlocks labels = { f with blocks := f.blocks ++ new } ∧ new.length = labels.length ∧
      (∀ j D, new[j]? = some D → D.id = f.blocks.length + j) ∧ (f.labels.Nodup → (f.addBlocks labels).labels.Nodup) := by
  induction labels generalizing f with
  | nil => exact ⟨[], by simp [addBlocks], rfl, by simp, fun h => h⟩
  | cons label labels ih =>
    obtain ⟨new, heq, hlen, hids, hlabels⟩ := ih (f.addBlock label).2
    have hstep : f.addBlocks (label :: labels) = (f.addBlock label).2.addBlocks labels := rfl
    rw [hstep]
    refine ⟨{ id := f.blocks.length, label := freeLabel f.labels label } :: new, ?_, by simp [hlen], fun j D hD => ?_,
      fun h => hlabels (labels_addBlock_nodup h label)⟩
    · rw [heq]
      simp [addBlock]
    · cases j with
      | zero =>
        cases hD
        rfl
      | succ j =>
        rw [hids j D hD]
        simp [addBlock, Nat.add_assoc, Nat.add_comm 1]

/-- Changing as many blocks as there are in a list, from some number on. -/
theorem foldl_modifyBlocks (change : Block → Block → Block) (blocks : List Block) (base k : Nat) (f : Function) :
    (blocks.zipIdx k).foldl (fun f (b, id) => f.modifyBlock (base + id) (change b)) f = { f with
      blocks := f.blocks.mapIdx fun x C =>
        if base + k ≤ x then (blocks[x - (base + k)]?).elim C (change · C) else C } := by
  refine (foldl_modifyBlock (α := Block × Nat) (base + ·.2) (fun a => change a.1) _ f).trans ?_
  congr 2
  funext x C
  induction blocks generalizing k C with
  | nil => simp
  | cons b blocks ih =>
    rw [List.zipIdx_cons, List.foldl_cons, ih]
    by_cases h1 : base + k = x
    · subst h1
      have : ¬base + (k + 1) ≤ base + k := by omega
      simp [this]
    · by_cases h2 : base + k ≤ x
      · have h3 : base + (k + 1) ≤ x := by omega
        have h4 : x - (base + k) = x - (base + (k + 1)) + 1 := by omega
        simp [h1, h2, h3, h4]
      · have h3 : ¬base + (k + 1) ≤ x := by omega
        simp [h1, h2, h3]

/-- What stands around a call in its block. -/
def spliceAt (b : Block) (site : Site) (dest : Option Register) (args : List Value) (ret : Ty) : Splice where
  block := site.block
  before := b.instructions.take site.index
  dest := dest
  args := args
  ret := ret
  after := b.instructions.drop (site.index + 1)
  terminator := b.terminator

/-- The first steps: the block of a call is cut behind it. -/
def cut (f : Function) (site : Site) (b : Block) (label : String) : Function :=
  let cleared := f.modifyBlock site.block fun b => { b with instructions := b.instructions.take site.index, terminator := none }
  b.successors.foldl (·.renamePhiSource · site.block f.blocks.length)
    ((cleared.addBlock label).2.modifyBlock f.blocks.length fun c =>
      { c with instructions := b.instructions.drop (site.index + 1), terminator := b.terminator })

/-- The next steps: a copy of the blocks of the callee is added. -/
def addCopy (f callee : Function) (t : Transplant) : Function :=
  let added := f.addBlocks (callee.blocks.map fun b => callee.name ++ "." ++ b.label)
  callee.blocks.zipIdx.foldl (fun f (b, id) =>
    f.modifyBlock (t.firstBlock + id) fun c =>
      { c with
        instructions := (b.instructions.filter fun i => !i.isAlloca).map t.instruction
        terminator := some (t.terminator b.terminator) }) { added with registers := added.registers ++ callee.registers }

/-- The last steps: the result, the slots and the jump to the copy are put in their places. -/
def connect (f callee : Function) (s : Splice) (t : Transplant) : Function :=
  let returns := callee.blocks.zipIdx.filterMap fun (b, id) => t.returned? id b
  let f := match s.dest with
    | some dest => f.modifyBlock t.next fun c => { c with instructions := resultOf dest s.ret returns :: c.instructions }
    | none => f
  let f := f.modifyBlock f.entry (·.insertAfterAllocas ((callee.instructions.filter (·.isAlloca)).map t.instruction))
  f.modifyBlock s.block fun b => { b with terminator := some (.jump (t.firstBlock + callee.entry)) }

theorem length_cut (f : Function) (site : Site) (b : Block) (label : String) :
    (f.cut site b label).blocks.length = f.blocks.length + 1 := by
  simp [cut, foldl_renamePhiSource, modifyBlock, addBlock]

theorem block?_renamed (targets : List BlockId) (old new : BlockId) (f : Function) (x : BlockId) :
    (targets.foldl (·.renamePhiSource · old new) f).block? x =
      (f.block? x).map fun B => if x ∈ targets then B.renameSource old new else B := by
  rw [foldl_renamePhiSource, block?, List.getElem?_mapIdx]
  rfl

/-- The cut changes the blocks only, and keeps labels apart. -/
theorem cut_fields (f : Function) (site : Site) (b : Block) (label : String) :
    f.cut site b label = { f with blocks := (f.cut site b label).blocks } ∧
      (f.labels.Nodup → (f.cut site b label).labels.Nodup) := by
  have hrename : ∀ (targets : List BlockId) (old new : BlockId) (g : Function),
      (targets.foldl (·.renamePhiSource · old new) g).labels = g.labels := by
    intro targets old new g
    refine labels_eq fun x => ?_
    rw [block?_renamed]
    cases g.block? x with
    | none => rfl
    | some B =>
      simp only [Option.map_some]
      split <;> rfl
  refine ⟨by simp [cut, foldl_renamePhiSource, modifyBlock, addBlock], fun h => ?_⟩
  rw [cut, hrename, labels_modifyBlock]
  · refine labels_addBlock_nodup ?_ label
    rwa [labels_modifyBlock]
    exact fun _ => rfl
  · exact fun _ => rfl

/-- Inlining, step by step. -/
theorem inlineCall_eq {dest : Option Register} {name : String} {args : List Value} {ret : Ty} (hb : f.block? site.block = some b)
    (hc : b.instructions[site.index]? = some (.call dest name args ret)) :
    f.inlineCall site callee = some (((f.cut site b (callee.name ++ ".cont")).addCopy callee
      ((spliceAt b site dest args ret).transplant f callee)).connect callee (spliceAt b site dest args ret)
        ((spliceAt b site dest args ret).transplant f callee)) := by
  have hregs : (f.cut site b (callee.name ++ ".cont")).registers = f.registers := by
    simp [cut, foldl_renamePhiSource, modifyBlock, addBlock]
  have ht : (spliceAt b site dest args ret).transplant f callee =
      { registers := callee.registers.size
        firstRegister := (f.cut site b (callee.name ++ ".cont")).registers.size
        firstBlock := (f.cut site b (callee.name ++ ".cont")).blocks.length
        args, next := f.blocks.length } := by
    rw [Splice.transplant, hregs, length_cut]
    rfl
  have hnext : ((f.modifyBlock site.block fun b => { b with instructions := b.instructions.take site.index, terminator := none
      }).addBlock (callee.name ++ ".cont")).1 = f.blocks.length := by simp [addBlock, modifyBlock]
  rw [ht, inlineCall, hb]
  simp only [hc, hnext]
  rfl

/-- Where a call is inlined there is one. -/
theorem inlineCall_eq_some {f' : Function} (h : f.inlineCall site callee = some f') : ∃ b dest name args ret,
    f.block? site.block = some b ∧ b.instructions[site.index]? = some (.call dest name args ret) := by
  unfold inlineCall at h
  split at h
  · cases h
  · split at h
    · exact ⟨_, _, _, _, _, ‹_›, ‹_›⟩
    · cases h

/-- The blocks of the caller after the cut. -/
theorem block?_cut (label : String) (dest : Option Register) (args : List Value) (ret : Ty) {x : BlockId} {X : Block}
    (hX : f.block? x = some X) : (f.cut site b label).block? x = some
      { X with
        instructions := (if x = site.block then X.instructions.take site.index else X.instructions).map (·.mapIncoming
          ((spliceAt b site dest args ret).edges f x))
        terminator := if x = site.block then none else X.terminator } := by
  have hx : x < f.blocks.length := lt_of_block? hX
  have hlen : ∀ g, (f.modifyBlock site.block g).blocks.length = f.blocks.length := fun g => by simp [modifyBlock]
  rw [cut, block?_renamed, block?_modifyBlock, block?_addBlock, hlen, if_neg (Nat.ne_of_lt hx), block?_modifyBlock, hX, Option.map_some,
    Option.map_some, Option.map_some, if_neg (Nat.ne_of_gt hx), Option.some.injEq]
  have hs : (spliceAt b site dest args ret).successors = b.successors := rfl
  have hphis : ∀ B : Block, (if x ∈ b.successors then B.renameSource site.block f.blocks.length else B) =
      { B with instructions := B.instructions.map (·.mapIncoming ((spliceAt b site dest args ret).edges f x)) } := by
    intro B
    rw [Splice.edges, hs]
    split
    · rfl
    · simp
  rw [hphis]
  by_cases hc : site.block = x
  · rw [if_pos hc, if_pos hc.symm, if_pos hc.symm]
  · rw [if_neg hc, if_neg (Ne.symm hc), if_neg (Ne.symm hc)]

/-- The block behind the call after the cut. -/
theorem block?_cut_next (site : Site) (label : String) (htargets : ∀ x ∈ b.successors, x < f.blocks.length) :
    ∃ label', (f.cut site b label).block? f.blocks.length = some
      { id := f.blocks.length, label := label', instructions := b.instructions.drop (site.index + 1), terminator := b.terminator } := by
  have hm : f.blocks.length ∉ b.successors := fun h => Nat.lt_irrefl _ (htargets _ h)
  simp [cut, foldl_renamePhiSource, modifyBlock, addBlock, block?, hm]

/-- Adding the copy of the callee: what is there stays, and the blocks of the copy follow. -/
theorem block?_addCopy (f callee : Function) (t : Transplant) (ht : t.firstBlock = f.blocks.length) :
    (∀ x, x < f.blocks.length → (f.addCopy callee t).block? x = f.block? x) ∧
      (∀ j C, callee.block? j = some C → ∃ label, (f.addCopy callee t).block? (f.blocks.length + j) = some
        { id := f.blocks.length + j
          label
          instructions := t.copy C.instructions
          terminator := some (t.terminator C.terminator) }) ∧
      (f.addCopy callee t).blocks.length = f.blocks.length + callee.blocks.length ∧
      (f.labels.Nodup → (f.addCopy callee t).labels.Nodup) ∧
      f.addCopy callee t = { f with
        blocks := (f.addCopy callee t).blocks, registers := f.registers ++ callee.registers } := by
  obtain ⟨new, hadd, hlen, hids, hlabels⟩ := f.addBlocks_eq (callee.blocks.map fun b => callee.name ++ "." ++ b.label)
  rw [List.length_map] at hlen
  have heq : f.addCopy callee t = { f with
      registers := f.registers ++ callee.registers
      blocks := (f.blocks ++ new).mapIdx fun x C => if f.blocks.length ≤ x then
        (callee.blocks[x - f.blocks.length]?).elim C fun b => { C with
          instructions := t.copy b.instructions
          terminator := some (t.terminator b.terminator) } else C } := by
    simp only [addCopy, foldl_modifyBlocks fun b c => { c with
        instructions := t.copy b.instructions
        terminator := some (t.terminator b.terminator) }, hadd, ht, Nat.add_zero]
  refine ⟨fun x hx => ?_, fun j C hC => ?_, ?_, fun h => ?_, ?_⟩
  · have : ¬f.blocks.length ≤ x := Nat.not_le.mpr hx
    rw [heq]
    simp only [block?, List.getElem?_mapIdx, List.getElem?_append, hx, if_true, this, if_false]
    simp
  · have hj : j < callee.blocks.length := lt_of_block? hC
    have hC : callee.blocks[j]? = some C := hC
    obtain ⟨D, hD⟩ : ∃ D, new[j]? = some D := ⟨_, List.getElem?_eq_getElem (hlen ▸ hj)⟩
    refine ⟨D.label, ?_⟩
    rw [heq, block?, List.getElem?_mapIdx, List.getElem?_append_right (Nat.le_add_right _ _), Nat.add_sub_cancel_left, hD,
      Option.map_some, if_pos (Nat.le_add_right _ _), hC, ← hids j D hD]
    rfl
  · rw [heq]
    simp [hlen]
  · have := hlabels h
    rw [hadd] at this
    refine (congrArg List.Nodup ?_).mp this
    rw [heq, labels, labels]
    refine List.ext_getElem? fun x => ?_
    simp only [List.getElem?_map, List.getElem?_mapIdx]
    cases (f.blocks ++ new)[x]? with
    | none => rfl
    | some C =>
      simp only [Option.map_some]
      split
      · cases callee.blocks[x - f.blocks.length]? <;> rfl
      · rfl
  · rw [heq]

/-- The blocks after the last steps. -/
theorem block?_connect (f callee : Function) (s : Splice) (t : Transplant) (x : BlockId) :
    (f.connect callee s t).block? x = (f.block? x).map fun X =>
      let brought := if x = t.next then s.bring (callee.blocks.zipIdx.filterMap fun (b, id) => t.returned? id b) else []
      let slots := if x = f.entry then (callee.instructions.filter (·.isAlloca)).map t.instruction else []
      { X with
        instructions := (brought ++ X.instructions).takeWhile (·.isAlloca) ++ slots ++
          (brought ++ X.instructions).dropWhile (·.isAlloca)
        terminator := if x = s.block then some (.jump (t.firstBlock + callee.entry)) else X.terminator } := by
  have hinsert : ∀ (B : Block) added, B.insertAfterAllocas added = { B with
      instructions := B.instructions.takeWhile (·.isAlloca) ++ added ++ B.instructions.dropWhile (·.isAlloca) } := by
    intro B added
    rw [← instructions_insertAfterAllocas]
    rfl
  have hentry : ∀ id g, (f.modifyBlock id g).entry = f.entry := fun _ _ => rfl
  unfold connect Splice.bring
  cases s.dest with
  | none | some dest =>
    simp only [block?_modifyBlock, Option.map_map, hentry, @eq_comm _ _ x]
    congr 1
    funext X
    simp only [Function.comp_apply, hinsert]
    split_ifs <;> simp

/-- The last steps change the blocks only, and keep labels and their number. -/
theorem connect_fields (f callee : Function) (s : Splice) (t : Transplant) :
    f.connect callee s t = { f with blocks := (f.connect callee s t).blocks } ∧
      (f.connect callee s t).labels = f.labels ∧ (f.connect callee s t).blocks.length = f.blocks.length := by
  have hlabels : (f.connect callee s t).labels = f.labels := labels_eq fun x => by
    rw [block?_connect, Option.map_map]
    rfl
  refine ⟨?_, hlabels, by simpa [labels] using congrArg List.length hlabels⟩
  unfold connect
  cases s.dest <;> rfl

/-- What the steps of inlining come to. -/
theorem inlineCall_spliced {dest : Option Register} {name : String} {args : List Value} {ret : Ty} (hb : f.block? site.block = some b)
    (hc : b.instructions[site.index]? = some (.call dest name args ret)) (htargets : ∀ x ∈ b.successors, x < f.blocks.length)
    (hentry : f.entry < f.blocks.length) (h : f.inlineCall site callee = some f') :
    f.Spliced callee (spliceAt b site dest args ret) f' := by
  have hblock : site.block < f.blocks.length := lt_of_block? hb
  rw [inlineCall_eq hb hc, Option.some.injEq] at h
  obtain ⟨s, hs⟩ : ∃ s, s = spliceAt b site dest args ret := ⟨_, rfl⟩
  obtain ⟨cut, hcut⟩ : ∃ cut, cut = f.cut site b (callee.name ++ ".cont") := ⟨_, rfl⟩
  rw [← hs, ← hcut] at h
  have hlen := hcut ▸ length_cut f site b (callee.name ++ ".cont")
  obtain ⟨hfields, hlabels⟩ := hcut ▸ cut_fields f site b (callee.name ++ ".cont")
  obtain ⟨hold, hnew, hlen', hlabels', hfields'⟩ := block?_addCopy cut callee (s.transplant f callee) hlen.symm
  obtain ⟨g, hg⟩ : ∃ g, g = cut.addCopy callee (s.transplant f callee) := ⟨_, rfl⟩
  rw [← hg] at h hold hnew hlen' hlabels' hfields'
  rw [hlen] at hold hnew hlen'
  obtain ⟨hfields'', hlabels'', hlen''⟩ := connect_fields g callee s (s.transplant f callee)
  rw [h] at hfields'' hlabels'' hlen''
  have hgentry : g.entry = f.entry := by rw [hfields', hfields]
  have hblocks : ∀ x, f'.block? x = (g.block? x).map fun X =>
      let brought := if x = f.blocks.length then s.result f callee else []
      let slots := if x = f.entry then s.slots f callee else []
      { X with
        instructions := (brought ++ X.instructions).takeWhile (·.isAlloca) ++ slots ++
          (brought ++ X.instructions).dropWhile (·.isAlloca)
        terminator := if x = s.block then some (.jump (f.blocks.length + 1 + callee.entry)) else X.terminator } := by
    intro x
    rw [← h, block?_connect, hgentry]
    rfl
  refine
    { name := by rw [hfields'', hfields', hfields]
      params := by rw [hfields'', hfields', hfields]
      ret := by rw [hfields'', hfields', hfields]
      entry := by rw [hfields'', hfields', hfields]
      registers := by rw [hfields'', hfields', hfields]
      length := by rw [hlen'', hlen']
      labels := fun hn => hlabels'' ▸ hlabels' (hlabels hn)
      own := fun x X hX => ?_
      next := ?_
      copied := fun j C hC => ?_ }
  · have hx : x < f.blocks.length := lt_of_block? hX
    have hnext : x ≠ f.blocks.length := Nat.ne_of_lt hx
    have hbefore : s.before = b.instructions.take site.index := by rw [hs]; rfl
    have hsb : s.block = site.block := by rw [hs]; rfl
    rw [← hs, hblocks, hold x (Nat.lt_succ_of_lt hx), hcut, block?_cut _ dest args ret hX, ← hs, Option.map_some]
    have hown : (if x = site.block then X.instructions.take site.index else X.instructions).map
        (·.mapIncoming (s.edges f x)) = s.own f x X := by
      rw [Splice.own, hbefore, hsb]
      by_cases hc : x = site.block
      · subst hc
        cases hX.symm.trans hb
        rfl
      · simp [hc]
    simp only [hown, if_neg hnext, List.nil_append, Splice.ownBlock, hsb]
    split_ifs <;> rfl
  · obtain ⟨label, hlabel⟩ := block?_cut_next site (callee.name ++ ".cont") htargets
    refine ⟨label, ?_⟩
    have hne : f.blocks.length ≠ s.block := by rw [hs]; exact Nat.ne_of_gt hblock
    rw [← hs, hblocks, hold _ (Nat.lt_succ_self _), hcut, hlabel, Option.map_some]
    simp only [if_true, if_neg (Nat.ne_of_gt hentry), if_neg hne, List.append_nil, List.takeWhile_append_dropWhile]
    rw [hs]
    rfl
  · obtain ⟨label, hlabel⟩ := hnew j C hC
    refine ⟨label, ?_⟩
    have hlt : f.blocks.length < f.blocks.length + 1 + j := by omega
    have hne : f.blocks.length + 1 + j ≠ s.block := by
      rw [hs]
      exact Nat.ne_of_gt (Nat.lt_trans hblock hlt)
    rw [← hs, hblocks, hlabel, Option.map_some]
    simp only [if_neg (Nat.ne_of_gt hlt), if_neg (Nat.ne_of_gt (Nat.lt_trans hentry hlt)), if_neg hne, List.nil_append,
      List.append_nil, List.takeWhile_append_dropWhile]

end Function

end Ember.IR
