import Ember.Proofs.IR.Block
import Ember.Proofs.Pass.Narrowing

/-!
# Settled branches

A branch that always goes the same way becomes a jump, and the phis of the block that it never takes lose an edge. The main
statement here is that the function stays well formed.
-/

namespace Ember.IR

/-- Keeps the edges of phis from some blocks. -/
def Block.filterEdges (keep : BlockId → Bool) (B : Block) : Block :=
  B.mapInstructions (·.mapIncoming (·.filter fun e => keep e.2))

theorem Block.filterEdges_true (B : Block) : (B.filterEdges fun _ => true) = B := by
  have : ∀ i : Instruction, i.mapIncoming (·.filter fun _ => true) = i := fun i => by
    cases i <;> simp [Instruction.mapIncoming]
  rw [filterEdges, mapInstructions, List.map_congr_left fun i _ => this i, List.map_id']

theorem Block.filterEdges_filterEdges (keep keep' : BlockId → Bool) (B : Block) :
    (B.filterEdges keep).filterEdges keep' = B.filterEdges fun b => keep b && keep' b := by
  have : ∀ i : Instruction, (i.mapIncoming (·.filter fun e => keep e.2)).mapIncoming (·.filter fun e => keep' e.2) =
      i.mapIncoming (·.filter fun e => keep e.2 && keep' e.2) := fun i => by
    cases i <;> simp [Instruction.mapIncoming, List.filter_filter, Bool.and_comm]
  simp only [filterEdges, mapInstructions, List.map_map]
  congr 1
  exact List.map_congr_left fun i _ => this i

/-- Where a settled block goes, and where it may go otherwise. -/
theorem Block.settled?_cases {B : Block} {taken : BlockId} {untaken : Option BlockId} (h : B.settled? = some (taken, untaken)) :
    ∃ cond yes no, B.terminator = some (.branch cond yes no) ∧
      ((yes = no ∧ taken = yes ∧ untaken = none) ∨
        (yes ≠ no ∧ ∃ n, cond.constant?.bind (·.int?) = some n ∧
          ((n = 0 ∧ taken = no ∧ untaken = some yes) ∨ (n ≠ 0 ∧ taken = yes ∧ untaken = some no)))) := by
  obtain ⟨t, ht, hs⟩ := Option.bind_eq_some_iff.mp h
  cases t with
  | branch cond yes no =>
    refine ⟨cond, yes, no, ht, ?_⟩
    simp only [Terminator.settled?] at hs
    split at hs
    · rename_i he
      cases hs
      exact .inl ⟨he, rfl, rfl⟩
    · rename_i hne
      refine .inr ⟨hne, ?_⟩
      split at hs
      · rename_i hc
        cases hs
        exact ⟨0, hc, .inl ⟨rfl, rfl, rfl⟩⟩
      · rename_i n hn hc
        cases hs
        exact ⟨n, hc, .inr ⟨hn, rfl, rfl⟩⟩
      · cases hs
  | _ => cases hs

/-- A block keeps its edges but those that it never takes. -/
theorem Block.mem_successors_straightened {B : Block} {s : BlockId} :
    s ∈ B.straightened.successors ↔ s ∈ B.successors ∧ ∀ taken, B.settled? ≠ some (taken, some s) := by
  unfold Block.straightened
  split
  · rename_i taken untaken h
    obtain ⟨cond, yes, no, ht, hc⟩ := Block.settled?_cases h
    simp only [Block.successors, ht, Terminator.successors, h]
    rcases hc with ⟨rfl, rfl, rfl⟩ | ⟨hne, n, -, ⟨-, rfl, rfl⟩ | ⟨-, rfl, rfl⟩⟩
    · simp
    · simp
      grind
    · simp
      grind
  · rename_i h
    simp [h]

theorem Block.id_straightened (B : Block) : B.straightened.id = B.id := by
  unfold Block.straightened
  split <;> rfl

@[simp] theorem Block.instructions_straightened (B : Block) : B.straightened.instructions = B.instructions := by
  unfold Block.straightened
  split <;> rfl

/-- A straightened block has the same instructions, and ends with fewer edges. -/
theorem Block.narrowed_straightened (B : Block) (keep : BlockId → Bool) : B.Narrowed id (B.straightened.filterEdges keep) := by
  have hl : B.straightened.label = B.label := by
    unfold Block.straightened
    split <;> rfl
  refine ⟨hl, ⟨(·.filter fun e => keep e.2), ?_, fun incoming v p h => List.mem_of_mem_filter h⟩, ?_, ?_⟩
  · rw [Block.filterEdges, Block.mapInstructions, B.instructions_straightened]
  · intro t' ht'
    rw [Block.filterEdges, Block.mapInstructions] at ht'
    unfold Block.straightened at ht'
    split at ht'
    · rename_i taken untaken h
      obtain ⟨cond, yes, no, ht, hc⟩ := Block.settled?_cases h
      obtain rfl := Option.some.inj ht'
      refine ⟨_, ht, ⟨fun s hs => ?_, nofun, fun h => by simp at h, fun _ _ _ => trivial⟩⟩
      rcases List.mem_singleton.mp hs
      rcases hc with ⟨rfl, rfl, -⟩ | ⟨-, n, -, ⟨-, rfl, -⟩ | ⟨-, rfl, -⟩⟩ <;> simp [Terminator.successors]
    · exact ⟨t', ht', ⟨fun _ h => h, fun _ h => h, id, fun _ _ h => h⟩⟩
  · intro he
    rw [Block.filterEdges, Block.mapInstructions]
    unfold Block.straightened
    split
    · rfl
    · exact he

namespace Function

variable {I : Interface} {f : Function}

/-- Removing the edges of phis, all at once. -/
theorem foldl_removePhiEdge (edges : List (BlockId × BlockId)) (f : Function) : edges.foldl removePhiEdge f = { f with
      blocks := f.blocks.mapIdx fun b B => B.filterEdges fun p => !edges.contains (p, b) } := by
  refine (foldl_modifyBlock (·.2) (fun edge B => B.filterEdges fun p => p ≠ edge.1) edges f).trans ?_
  congr 2
  funext b B
  induction edges generalizing B with
  | nil => simp [Block.filterEdges_true]
  | cons edge edges ih =>
    obtain ⟨q, c⟩ := edge
    rw [List.foldl_cons, ih]
    by_cases hb : c = b
    · subst hb
      simp [Block.filterEdges_filterEdges]
    · have : ∀ p, (p, b) ≠ (q, c) := fun p h => hb (Prod.mk.inj h).2.symm
      simp [hb, this]

/-- The blocks after settling branches. -/
theorem block?_simplifyBranches (f : Function) (b : BlockId) : f.simplifyBranches.2.block? b =
      (f.block? b).map fun B => B.straightened.filterEdges fun p => !f.untakenEdges.contains (p, b) := by
  simp [simplifyBranches, foldl_removePhiEdge, block?, mapBlocks, Function.comp_def]

theorem Shaped.mem_untakenEdges (hf : f.Shaped) {p b : BlockId} :
    (p, b) ∈ f.untakenEdges ↔ ∃ P taken, f.block? p = some P ∧ P.settled? = some (taken, some b) := by
  unfold untakenEdges
  rw [List.mem_filterMap]
  constructor
  · rintro ⟨P, hP, he⟩
    split at he
    · rename_i taken untaken hs
      cases he
      exact ⟨P, taken, hf.block?_id hP, hs⟩
    · cases he
  · rintro ⟨P, taken, hP, hs⟩
    exact ⟨P, List.mem_of_getElem? hP, by simp [hs, hf.ids p P hP]⟩

/-- Settling branches changes the blocks only. -/
theorem simplifyBranches_eq (f : Function) : f.simplifyBranches.2 = { f with
    blocks := f.blocks.mapIdx fun b B => B.straightened.filterEdges fun p => !f.untakenEdges.contains (p, b) } := by
  have : f.simplifyBranches.2 = f.untakenEdges.foldl removePhiEdge (f.mapBlocks (·.straightened)) := rfl
  rw [this, foldl_removePhiEdge, mapBlocks]
  simp only [Function.mk.injEq, true_and, and_true]
  exact List.ext_getElem? fun b => by simp [Function.comp_def]

/-- Settling branches keeps the blocks, without the edges that are never taken. -/
theorem narrowed_simplifyBranches (hf : f.Shaped) : f.Narrowed id f.simplifyBranches.2 := by
  have hback : ∀ {b B'}, f.simplifyBranches.2.block? b = some B' → ∃ B, f.block? b = some B ∧ B.Narrowed id B' := by
    intro b B' hB'
    rw [block?_simplifyBranches] at hB'
    obtain ⟨B, hB, rfl⟩ := Option.map_eq_some_iff.mp hB'
    exact ⟨B, hB, B.narrowed_straightened _⟩
  have hlen : f.simplifyBranches.2.blocks.length = f.blocks.length := by simp [simplifyBranches_eq]
  refine ⟨by rw [simplifyBranches_eq], by rw [simplifyBranches_eq], by rw [simplifyBranches_eq], by rw [simplifyBranches_eq], ?_, ?_, ?_,
    fun b B' => hback, ?_, ?_⟩
  · intro b B' hB'
    rw [block?_simplifyBranches] at hB'
    obtain ⟨B, hB, rfl⟩ := Option.map_eq_some_iff.mp hB'
    exact B.id_straightened.trans (hf.ids b B hB)
  · rw [hlen, simplifyBranches_eq]
    exact hf.entry_lt
  · intro b _
    rw [simplifyBranches_eq, id]
  · intro B' hB' s hs
    obtain ⟨b, hb⟩ := exists_block? hB'
    obtain ⟨B, hB, hn⟩ := hback hb
    rw [hlen]
    exact hf.targets B (List.mem_of_getElem? hB) s (hn.successors hs)
  · refine ⟨f.blocks, List.Sublist.refl _, List.forall₂_iff_get.mpr ⟨hlen.symm, fun b hb hb' => ?_⟩⟩
    obtain ⟨B, hB, hn⟩ := hback (List.getElem?_eq_getElem hb')
    rw [block?, List.getElem?_eq_getElem hb] at hB
    obtain rfl := Option.some.inj hB
    exact hn

/-- Settling branches keeps a function well formed: a phi keeps the edges that are left. -/
theorem WellFormed.simplifyBranches (hf : f.WellFormed I) : f.simplifyBranches.2.WellFormed I := by
  have hn := narrowed_simplifyBranches hf.shaped
  refine hn.wellFormed (fun r hr => ?_) ?_ hf
  · have hop : .register r ∈ f.operands := hn.operands hr
    obtain ⟨i, hi, hir⟩ := hf.shaped.defined r hop
    obtain ⟨b, B, hb, hiB⟩ := mem_instructions.mp hi
    have hB' := f.block?_simplifyBranches b
    rw [show f.block? b = some B from hb, Option.map_some] at hB'
    obtain ⟨g, hg, -⟩ := (B.narrowed_straightened fun p => !f.untakenEdges.contains (p, b)).instructions
    refine ⟨i.mapIncoming g, mem_of_block? hB' ?_, by simpa using hir⟩
    exact hg ▸ List.mem_map.mpr ⟨i, hiB, rfl⟩
  · intro b B' dest type incoming' rest' hB' hl'
    rw [block?_simplifyBranches] at hB'
    obtain ⟨B, hB, rfl⟩ := Option.map_eq_some_iff.mp hB'
    obtain ⟨incoming, rest, hl, rfl⟩ : ∃ incoming rest, B.instructions = .phi dest type incoming :: rest ∧
        incoming' = incoming.filter fun e => !f.untakenEdges.contains (e.2, b) := by
      rw [Block.filterEdges, Block.mapInstructions, Block.instructions_straightened] at hl'
      obtain ⟨i, rest, hl, he, -⟩ := List.map_eq_cons_iff.mp hl'
      obtain ⟨incoming, rfl, rfl⟩ := Instruction.mapIncoming_eq_phi he
      exact ⟨incoming, rest, hl, rfl⟩
    obtain ⟨hnodup, hedges⟩ := hf.shaped.phi_edges b B dest type incoming rest hB hl
    refine ⟨hnodup.sublist (List.filter_sublist.map _), fun p => ?_⟩
    have hmem : p ∈ (incoming.filter fun e => !f.untakenEdges.contains (e.2, b)).map (·.2) ↔
        p ∈ incoming.map (·.2) ∧ (p, b) ∉ f.untakenEdges := by
      simp only [List.mem_map, List.mem_filter, Bool.not_eq_true', List.contains_eq_mem, decide_eq_false_iff_not]
      constructor
      · rintro ⟨e, ⟨he, hne⟩, rfl⟩
        exact ⟨⟨e, he, rfl⟩, hne⟩
      · rintro ⟨⟨e, he, rfl⟩, hne⟩
        exact ⟨e, ⟨he, hne⟩, rfl⟩
    rw [hmem, hedges, hf.shaped.mem_untakenEdges]
    constructor
    · rintro ⟨⟨P, hP, hs⟩, hne⟩
      refine ⟨_, (block?_simplifyBranches f p).trans (by rw [hP]; rfl), ?_⟩
      exact Block.mem_successors_straightened.mpr ⟨hs, fun taken h => hne ⟨P, taken, hP, h⟩⟩
    · rintro ⟨P', hP', hs⟩
      rw [block?_simplifyBranches] at hP'
      obtain ⟨P, hP, rfl⟩ := Option.map_eq_some_iff.mp hP'
      obtain ⟨hs, hne⟩ := Block.mem_successors_straightened.mp hs
      refine ⟨⟨P, hP, hs⟩, ?_⟩
      rintro ⟨Q, taken, hQ, h⟩
      cases hP.symm.trans hQ
      exact hne taken h

end Function

end Ember.IR
