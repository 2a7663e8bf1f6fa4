import Ember.Proofs.Pass.Lookup

/-!
# Passes report what they change

A pass tells whether it found anything to do. Where it found nothing the code is left as it was. Where it found something the code is
another one, which takes an argument wherever a pass makes several steps: a later step must not undo an earlier one.
-/

namespace Ember.IR

variable {f : Function}

namespace Function

variable {α : Type} {B : Block}

/-- Blocks are known by their positions. -/
def Numbered (f : Function) : Prop :=
  f.blocks.map (·.id) = List.range f.blocks.length

/-- What is said of a function is true: it was left as it was, or it has other blocks. -/
structure Tells (f : Function) (r : Bool × Function) : Prop where
  same : r.1 = false → r.2 = f
  changed : r.1 = true → r.2.blocks ≠ f.blocks

theorem map_eq_self {l : List α} {g : α → α} : l.map g = l ↔ ∀ a ∈ l, g a = a := by
  have h := List.map_inj_left (l := l) (f := g) (g := id)
  rwa [List.map_id] at h

theorem getD_eq_self {o : Option α} {a : α} (h : ∀ b, o = some b → b ≠ a) : o.getD a = a ↔ o.isSome = false := by
  cases o with
  | none => simp
  | some b => simpa using h b rfl

/-! ## Changes of all blocks at once -/

/-- A change of all blocks is reported if it is reported exactly where a block becomes another. -/
theorem tells_mapBlocks {found : Bool} {change : Block → Block} (h : found = false ↔ ∀ B ∈ f.blocks, change B = B) :
    f.Tells (found, f.mapBlocks change) where
  same hfound := by
    have hblocks : f.blocks.map change = f.blocks := map_eq_self.mpr (h.mp hfound)
    rw [mapBlocks, hblocks]
  changed hfound hblocks := by
    have hfalse := h.mpr (map_eq_self.mp hblocks)
    rw [hfalse] at hfound
    cases hfound

theorem mapInstructions_eq_self {g : Instruction → Instruction} : B.mapInstructions g = B ↔ ∀ i ∈ B.instructions, g i = i := by
  rw [← map_eq_self]
  cases B
  simp [Block.mapInstructions]

theorem tells_replaceBy {rule : Instruction → Option Instruction} (h : ∀ i i', rule i = some i' → i' ≠ i) : f.Tells (f.replaceBy rule) := by
  have hrule (i : Instruction) : (rule i).getD i = i ↔ (rule i).isSome = false := getD_eq_self (h i)
  refine tells_mapBlocks ?_
  simp only [mapInstructions_eq_self, hrule, instructions, List.any_eq_false, List.forall_mem_flatMap, Bool.not_eq_true]

/-- A copy in the place of an instruction is another instruction if no copy is replaced. -/
theorem tells_copying {result? : Instruction → Option α} (value : α → Value) (h : ∀ dest v, result? (.assign dest v) = none) :
    f.Tells (f.replaceBy fun i => (result? i).bind fun a => i.copying (value a)) := by
  refine tells_replaceBy fun i i' hr => ?_
  obtain ⟨a, ha, hc⟩ := Option.bind_eq_some_iff.mp hr
  obtain ⟨dest, -, rfl⟩ := Option.map_eq_some_iff.mp hc
  rintro rfl
  rw [h] at ha
  cases ha

theorem mapOperands_eq_self {σ : Value → Value} : B.mapOperands σ = B ↔ ∀ v ∈ B.operands, σ v = v := by
  have hi (i : Instruction) : i.mapOperands σ = i ↔ ∀ v ∈ i.operands, σ v = v := by
    cases i <;> simp [Instruction.mapOperands, Instruction.operands, map_eq_self, Prod.ext_iff]
  have ht (t : Terminator) : t.mapOperands σ = t ↔ ∀ v ∈ t.operands, σ v = v := by
    cases t with
    | ret value => cases value <;> simp [Terminator.mapOperands, Terminator.operands]
    | _ => simp [Terminator.mapOperands, Terminator.operands]
  obtain ⟨id, label, instructions, terminator⟩ := B
  cases terminator <;> simp [Block.mapOperands, Block.operands, map_eq_self, hi, ht]
  all_goals grind

theorem tells_propagateCopies : f.Tells f.propagateCopies := by
  have hsame (v : Value) : substituted (f.copies[·]?) v = v ↔ (v.register?.bind (f.copies[·]?)).isSome = false := by
    refine getD_eq_self fun w hw => ?_
    cases v with
    | register r => exact copies_ne hw
    | _ => cases hw
  refine tells_mapBlocks ?_
  simp only [mapOperands_eq_self, hsame, operands, List.any_eq_false, List.forall_mem_flatMap, Bool.not_eq_true]

theorem tells_removeDeadSlots : f.Tells f.removeDeadSlots := by
  have hblock (B : Block) (keep : Instruction → Bool) :
      { B with instructions := B.instructions.filter keep } = B ↔ ∀ i ∈ B.instructions, keep i = true := by
    cases B
    simp
  refine tells_mapBlocks ?_
  simp only [hblock, Bool.not_eq_false']
  constructor
  · intro hempty B _ i _
    have hnone := Std.TreeSet.isEmpty_iff_forall_contains.mp hempty
    cases i with
    | store pointer value type => cases pointer <;> simp [sparesSlots, Value.slotIn?, hnone]
    | _ => simp [sparesSlots, hnone]
  · intro hall
    refine Std.TreeSet.isEmpty_iff_forall_not_mem.mpr fun r hr => ?_
    obtain ⟨⟨⟨type, hi⟩, -⟩, -⟩ := (mem_deadSlots.mp hr).imp_left mem_localSlots.mp
    obtain ⟨B, hB, hi⟩ := List.mem_flatMap.mp hi
    have hspares := hall B hB _ hi
    simp [sparesSlots, Std.TreeSet.contains_iff_mem.mpr hr] at hspares

/-! ## Control flow -/

theorem tells_simplifyBranches : f.Tells f.simplifyBranches where
  same h := by
    have hnone : ∀ B ∈ f.blocks, B.settled? = none := by simpa [simplifyBranches] using h
    have hedges : f.untakenEdges = [] := by
      rw [untakenEdges, List.filterMap_eq_nil_iff]
      intro B hB
      rw [hnone B hB]
    have hblocks : f.blocks.map (·.straightened) = f.blocks := map_eq_self.mpr fun B hB => by rw [Block.straightened, hnone B hB]
    rw [simplifyBranches, hedges, mapBlocks, hblocks]
    rfl
  changed h hblocks := by
    obtain ⟨B, hB, hs⟩ : ∃ B ∈ f.blocks, B.settled?.isSome := by simpa [simplifyBranches] using h
    obtain ⟨b, hb⟩ := List.mem_iff_getElem?.mp hB
    obtain ⟨⟨taken, untaken⟩, hs⟩ := Option.isSome_iff_exists.mp hs
    have hafter := f.block?_simplifyBranches b
    rw [block?, hblocks, block?, hb, Option.map_some, Option.some.injEq] at hafter
    -- A settled branch has become a jump.
    have hend : B.terminator = some (.jump taken) := by
      rw [hafter]
      simp [Block.filterEdges, Block.mapInstructions, Block.straightened, hs]
    simp [Block.settled?, hend, Terminator.settled?] at hs

theorem tells_removeUnreachable : f.Tells f.removeUnreachable := by
  unfold removeUnreachable
  dsimp only
  split
  · exact ⟨fun _ => rfl, nofun⟩
  · rename_i hall
    refine ⟨nofun, fun _ hblocks => hall ?_⟩
    have hlen : f.reachable.length = f.blocks.length := by simp [reachable]
    have hkept := congrArg List.length hblocks
    have hzip : (f.blocks.zip f.reachable).length = f.blocks.length := by rw [List.length_zip, hlen, Nat.min_self]
    rw [List.length_mapIdx, List.length_map, ← hzip, List.length_filter_eq_length_iff] at hkept
    rw [← List.map_snd_zip (Nat.le_of_eq hlen), List.all_map, List.all_eq_true]
    exact hkept

theorem mem_modifyBlock {id : BlockId} {change : Block → Block} {X' : Block} (h : X' ∈ (f.modifyBlock id change).blocks) :
    X' ∈ f.blocks ∨ ∃ X ∈ f.blocks, X' = change X := by
  obtain ⟨x, hx⟩ := List.mem_iff_getElem?.mp h
  rw [modifyBlock, List.getElem?_modify] at hx
  obtain ⟨X, hX, rfl⟩ := Option.map_eq_some_iff.mp hx
  have hX := List.mem_of_getElem? hX
  split
  · exact .inr ⟨X, hX, rfl⟩
  · exact .inl hX

/-- A block that nothing leads to stays so when others are joined. -/
theorem not_mem_successors_join {s : BlockId} (h : ∀ X ∈ f.blocks, s ∉ X.successors) (first second : BlockId) :
    ∀ X' ∈ (f.join first second).blocks, s ∉ X'.successors := by
  unfold join
  split
  · exact h
  · rename_i B hB
    rw [foldl_renamePhiSource]
    intro X' hX'
    obtain ⟨x, hx, rfl⟩ := List.mem_mapIdx.mp hX'
    have hend (old new : BlockId) (targets : List BlockId) (X : Block) :
        (if x ∈ targets then X.renameSource old new else X).successors = X.successors := by
      split <;> rfl
    rw [hend]
    rcases mem_modifyBlock (List.getElem_mem hx) with hX | ⟨X, -, hX⟩
    · rcases mem_modifyBlock hX with hX | ⟨X, -, hX⟩
      · exact h _ hX
      · rw [hX]
        exact List.not_mem_nil
    · rw [hX]
      exact h B (List.mem_of_getElem? hB)

theorem not_mem_successors_joinWithin {s : BlockId} (fuel : Nat) (h : ∀ X ∈ f.blocks, s ∉ X.successors) :
    ∀ X' ∈ (f.joinWithin fuel).blocks, s ∉ X'.successors := by
  induction fuel generalizing f with
  | zero => exact h
  | succ fuel ih =>
    unfold joinWithin
    split
    · exact ih (not_mem_successors_join h _ _)
    · exact h

theorem Numbered.block?_id (hf : f.Numbered) (hB : B ∈ f.blocks) : f.block? B.id = some B := by
  obtain ⟨b, hb⟩ := List.mem_iff_getElem?.mp hB
  have hid := congrArg (·[b]?) hf
  have hlt := lt_of_block? hb
  simp only [List.getElem?_map, hb, Option.map_some, List.getElem?_range hlt, Option.some.injEq] at hid
  rw [hid]
  exact hb

/-- Nothing leads to the second of two joined blocks any more, and it stays so. -/
theorem tells_mergeBlocks (hf : f.Numbered) : f.Tells f.mergeBlocks where
  same h := by
    have hnone : f.joinable? = none := by simpa [mergeBlocks] using h
    unfold mergeBlocks
    cases f.blocks.length with
    | zero => rfl
    | succ n => rw [joinWithin, hnone]
  changed h hblocks := by
    obtain ⟨⟨first, second⟩, hj⟩ := Option.isSome_iff_exists.mp h
    obtain ⟨A, B, hjoin⟩ := exists_joinable (fun _ => hf.block?_id) hj
    have hA := List.mem_of_getElem? hjoin.first_block
    obtain ⟨n, hn⟩ := Nat.exists_eq_succ_of_ne_zero (Nat.ne_of_gt (List.length_pos_of_mem hA))
    have hgone : ∀ X' ∈ (f.join first second).blocks, second ∉ X'.successors := by
      intro X' hX'
      obtain ⟨x, hx⟩ := exists_block? hX'
      rcases hjoin.block?_cases hx with ⟨-, -, hend⟩ | ⟨-, X, hX, rfl⟩
      · simp [Block.successors, hend, Terminator.successors]
      · rw [successors_joinedBlock]
        split
        · exact hjoin.not_mem_successors
        · exact fun hs => ‹x ≠ first› (hjoin.only x X hX hs)
    have hlast := not_mem_successors_joinWithin n hgone A
    simp only [mergeBlocks, hn, joinWithin, hj] at hblocks
    rw [hblocks] at hlast
    exact hlast hA (by simp [Block.successors, hjoin.jump, Terminator.successors])

/-! ## Repeated changes -/

theorem instructionCount_filterInstructions_le (f : Function) (keep : Instruction → Bool) :
    (f.filterInstructions keep).instructionCount ≤ f.instructionCount := by
  unfold instructionCount filterInstructions mapBlocks
  induction f.blocks with
  | nil => exact Nat.le_refl _
  | cons B blocks ih => exact Nat.add_le_add (List.length_filter_le _ _) ih

theorem instructionCount_sweepWithin_le (fuel : Nat) (f : Function) : (f.sweepWithin fuel).instructionCount ≤ f.instructionCount := by
  induction fuel generalizing f with
  | zero => exact Nat.le_refl _
  | succ fuel ih =>
    unfold sweepWithin
    dsimp only
    split
    · exact Nat.le_refl _
    · exact (ih _).trans (instructionCount_filterInstructions_le _ _)

theorem tells_removeDead : f.Tells f.removeDead where
  same h := by
    have hsame : f.sweep.instructionCount = f.instructionCount := by simpa [removeDead] using h
    rw [removeDead, sweepWithin]
    simp [hsame]
  changed h hblocks := by
    have hne : f.sweep.instructionCount ≠ f.instructionCount := by simpa [removeDead] using h
    have hle : f.sweep.instructionCount ≤ f.instructionCount := instructionCount_filterInstructions_le _ _
    have hlast := instructionCount_sweepWithin_le f.instructionCount f.sweep
    simp only [removeDead, sweepWithin, if_neg hne] at hblocks
    have hcount : (f.sweep.sweepWithin f.instructionCount).instructionCount = f.instructionCount := by
      rw [instructionCount, hblocks, instructionCount]
    omega

/-- A load that was replaced by a copy is not put back by what leaves copies alone. -/
theorem forward_tells (slots : Registers) (known : Contents) (l : List Instruction) :
    ((forward slots known l).1 = false → (forward slots known l).2 = l) ∧
      ((forward slots known l).1 = true → ∀ g : Instruction → Instruction, (∀ dest v, g (.assign dest v) = .assign dest v) →
        (forward slots known l).2.map g ≠ l) := by
  fun_induction forward slots known l with
  | case1 => simp
  | _ => grind

theorem tells_forwardFromEntry (slots : Registers) : f.Tells (f.forwardFromEntry slots) := by
  have hcopy (value : Register → Option Value) (i : Instruction) :
      (loadCopy? slots value i).getD i = i ↔ (loadCopy? slots value i).isSome = false := by
    refine getD_eq_self fun i' hi' => ?_
    obtain ⟨_, _, _, _, rfl, rfl, -⟩ := loadCopy?_eq_some hi'
    simp
  refine tells_mapBlocks ?_
  simp only [List.any_eq_false, List.mem_filter, Bool.not_eq_true, decide_eq_true_eq, ← hcopy]
  grind [mapInstructions_eq_self]

theorem tells_forwardStores : f.Tells f.forwardStores := by
  have hsecond := tells_forwardFromEntry (f := (f.forwardInBlocks f.localSlots).2) f.localSlots
  cases hfound : (f.forwardInBlocks f.localSlots).1 with
  | false =>
    have hsame : (f.forwardInBlocks f.localSlots).2 = f := by
      simp only [forwardInBlocks, List.any_map, List.any_eq_false, Function.comp_apply, Bool.not_eq_true] at hfound
      have hblocks : (f.blocks.map fun B => { B with instructions := (forward f.localSlots ∅ B.instructions).2 }) = f.blocks :=
        map_eq_self.mpr fun B hB => by rw [(forward_tells _ _ _).1 (hfound B hB)]
      simp only [forwardInBlocks, List.map_map, Function.comp_def, hblocks]
    simp only [forwardStores, hfound, Bool.false_or]
    rwa [hsame] at hsecond ⊢
  | true =>
    refine ⟨fun h => by simp [forwardStores, hfound] at h, fun _ hblocks => ?_⟩
    simp only [forwardInBlocks, List.any_map, List.any_eq_true, Function.comp_apply] at hfound
    obtain ⟨B, hB, hforward⟩ := hfound
    simp only [forwardStores, forwardFromEntry, forwardInBlocks, List.map_map, map_eq_self] at hblocks
    have hsame := congrArg Block.instructions (hblocks B hB)
    simp only [Function.comp_apply] at hsame
    split at hsame
    · exact (forward_tells _ _ _).2 hforward id (fun _ _ => rfl) ((List.map_id _).trans hsame)
    · exact (forward_tells _ _ _).2 hforward _ (fun _ _ => rfl) hsame

/-! ## Inlining -/

theorem length_connect (callee : Function) (s : Splice) (t : Transplant) : (f.connect callee s t).blocks.length = f.blocks.length := by
  unfold connect
  cases s.dest <;> simp [modifyBlock]

theorem length_inlineCall {callee f' : Function} {site : Site} (h : f.inlineCall site callee = some f') : f.blocks.length < f'.blocks.length := by
  obtain ⟨b, dest, name, args, ret, hb, hi⟩ := inlineCall_eq_some h
  rw [inlineCall_eq hb hi, Option.some.injEq] at h
  have hcopy := block?_addCopy (f.cut site b (callee.name ++ ".cont")) callee ((spliceAt b site dest args ret).transplant f callee)
    (length_cut f site b _).symm
  rw [← h, length_connect, hcopy.2.2.1, length_cut]
  omega

end Function

namespace Module

variable {m m' : Module}

/-- The number of blocks of a module. -/
def blockCount (m : Module) : Nat :=
  (m.functions.map (·.blocks.length)).sum

theorem blockCount_inlineOnce {candidates : List String} {index : Nat} {event : Event} (h : m.inlineOnce? candidates index = some (m', event)) :
    m.blockCount < m'.blockCount := by
  obtain ⟨caller, site, callee, inlined, hcaller, -, -, hinlined, rfl⟩ := inlineOnce?_eq_some h
  have hgrown := Function.length_inlineCall hinlined
  have hsum (l : List Function) (n : Nat) (hn : l[n]? = some caller) :
      (l.map (·.blocks.length)).sum < ((l.modify n fun _ => inlined).map (·.blocks.length)).sum := by
    induction l generalizing n with
    | nil => simp at hn
    | cons f l ih =>
      cases n with
      | zero =>
        cases hn
        simpa using hgrown
      | succ n => simpa using ih n hn
  exact hsum m.functions index hcaller

/-- Every call that is inlined adds a block, and is noted. -/
theorem inlineCalls_tells (eligible : Function → Bool) (m : Module) :
    m.blockCount + (m.inlineCalls eligible).2.length ≤ (m.inlineCalls eligible).1.blockCount ∧
      ((m.inlineCalls eligible).2 = [] → (m.inlineCalls eligible).1 = m) := by
  refine inlineCalls_induction (P := fun m' journal => m.blockCount + journal.length ≤ m'.blockCount ∧ (journal = [] → m' = m))
    (fun m' m'' journal _ event h hm => ⟨?_, by simp⟩) rfl ⟨Nat.le_refl _, fun _ => rfl⟩
  have hlt := blockCount_inlineOnce hm
  rw [List.length_append, List.length_singleton]
  omega

/-- The code of a module: of each function its name, its blocks and where it starts. -/
def code (m : Module) : List (String × List Block × BlockId) :=
  m.functions.map fun f => (f.name, f.blocks, f.entry)

/-- What is said of a module is true: it was left as it was, or it has another code. -/
structure Tells (m : Module) (found : Bool) (m' : Module) : Prop where
  same : found = false → m' = m
  changed : found = true → m'.code ≠ m.code

theorem tells_inlineCalls (eligible : Function → Bool) : m.Tells (!(m.inlineCalls eligible).2.isEmpty) (m.inlineCalls eligible).1 := by
  obtain ⟨hle, hsame⟩ := m.inlineCalls_tells eligible
  refine ⟨fun h => hsame (by simpa using h), fun h hcode => ?_⟩
  have hpos : 0 < (m.inlineCalls eligible).2.length := List.length_pos_of_ne_nil (by simpa using h)
  have hcount := congrArg (fun code => (code.map (·.2.1.length)).sum) hcode
  simp only [code, List.map_map] at hcount
  have hcount : (m.inlineCalls eligible).1.blockCount = m.blockCount := hcount
  omega

theorem tells_removeUnused : m.Tells m.removeUnused.1 m.removeUnused.2 where
  same h := by
    simp only [removeUnused, ne_eq, decide_not, Bool.not_eq_false', decide_eq_true_eq, List.length_filter_eq_length_iff] at h
    rw [removeUnused, List.filter_eq_self.mpr h]
  changed h hcode := by
    have hlen := congrArg List.length hcode
    rw [code, code, List.length_map, List.length_map] at hlen
    exact of_decide_eq_true h hlen

theorem tells_functions {change : Function → Bool × Function} (h : ∀ f ∈ m.functions, f.Tells (change f)) :
    m.Tells ((m.functions.map change).any (·.1)) { m with functions := (m.functions.map change).map (·.2) } where
  same hfound := by
    simp only [List.any_map, List.any_eq_false, Function.comp_apply, Bool.not_eq_true] at hfound
    have hsame : (m.functions.map change).map (·.2) = m.functions := by
      rw [List.map_map, Function.map_eq_self]
      exact fun f hf => (h f hf).same (hfound f hf)
    rw [hsame]
  changed hfound hcode := by
    simp only [List.any_map, List.any_eq_true, Function.comp_apply] at hfound
    obtain ⟨f, hf, hfound⟩ := hfound
    simp only [code, List.map_map, List.map_inj_left] at hcode
    exact (h f hf).changed hfound (congrArg (·.2.1) (hcode f hf))

end Module

end Ember.IR

namespace Ember.Pass

open IR

variable {f : IR.Function}

theorem tells_onFunction (p : Pass) (hf : f.Numbered) : f.Tells (p.onFunction f) := by
  cases p with
  | constantFolding => exact Function.tells_copying .constant fun _ _ => rfl
  | simplification => exact Function.tells_copying id fun _ _ => rfl
  | copyPropagation => exact Function.tells_propagateCopies
  | branchSimplification => exact Function.tells_simplifyBranches
  | unreachableRemoval => exact Function.tells_removeUnreachable
  | blockMerging => exact Function.tells_mergeBlocks hf
  | deadInstructionRemoval => exact Function.tells_removeDead
  | storeForwarding => exact Function.tells_forwardStores
  | deadSlotRemoval => exact Function.tells_removeDeadSlots
  | alwaysInline | inline | unusedRemoval => exact ⟨fun _ => rfl, nofun⟩

theorem tells_onModule (p : Pass) (level : Level) {m : IR.Module} (h : ∀ f ∈ m.functions, f.Numbered) :
    m.Tells (p.onModule level m).1 (p.onModule level m).2.1 := by
  have hdefined : ∀ f ∈ m.functions, f.Tells (p.onDefined f) := by
    intro f hf
    unfold onDefined
    split
    · exact ⟨fun _ => rfl, nofun⟩
    · exact tells_onFunction p (h f hf)
  cases p with
  | alwaysInline | inline => exact Module.tells_inlineCalls _
  | unusedRemoval => exact Module.tells_removeUnused
  | _ => exact Module.tells_functions hdefined

/-- A pass reports a change exactly when the code after it is not the code before it, and without one it leaves the whole module as it was. -/
theorem reports_exactly (p : Pass) (level : Level) (m : IR.Module) (h : ∀ f ∈ m.functions, f.Numbered) :
    ((p.onModule level m).1 = true ↔ (p.onModule level m).2.1.code ≠ m.code) ∧
      ((p.onModule level m).1 = false → (p.onModule level m).2.1 = m) := by
  have htells := tells_onModule p level h
  refine ⟨⟨htells.changed, fun hne => ?_⟩, htells.same⟩
  by_contra hfound
  exact hne (congrArg Module.code (htells.same (Bool.eq_false_iff.mpr hfound)))

/-- A block that only jumps to the next one is reported when the two are joined. -/
theorem reports_exactly_join : ∃ m : IR.Module, m.check = .ok () ∧ (∀ f ∈ m.functions, f.Numbered) ∧
    (blockMerging.onModule .less m).2.1.code ≠ m.code := by
  let f : IR.Function := { name := "f", params := [], ret := .void, blocks :=
    [{ id := 0, label := "entry", terminator := some (.jump 1) }, { id := 1, label := "next", terminator := some (.ret none) }] }
  have hf : ∀ g ∈ [f], g.Numbered := List.forall_mem_singleton.mpr rfl
  exact ⟨{ name := "m", functions := [f] }, rfl, hf, (reports_exactly blockMerging _ _ hf).1.mp rfl⟩

end Ember.Pass
