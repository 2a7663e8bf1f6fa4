import Ember.Proofs.IR.WellFormed

/-!
# Functions with the same flow

Most passes keep the blocks of a function, their edges and the destinations of their instructions, and change or drop single
instructions. `Recast` describes such a change; `Recast.shaped` and `Recast.settled` say what of a well-formed function is left
to show for it: that what is used is still defined, and that what an instruction newly relies on held at its place.
-/

namespace Ember.IR

/-- Whether something in the function relies on a fact. -/
def Function.Relies (f : Function) (k : Fact) : Prop :=
  (∃ i ∈ f.instructions, f.Needs i k) ∨ ∃ r, k = .set r ∧ .register r ∈ f.operands

/-- What an instruction reads through is one of its operands. -/
theorem Instruction.reading_subset (i : Instruction) : ∀ v ∈ i.reading, v ∈ i.operands := by
  intro v hv
  cases i <;> simp_all [Instruction.reading, Instruction.operands]

/-- A register on which something relies is an operand. -/
theorem Function.Relies.register {f : Function} {r : Register} (h : f.Relies (.set r)) : .register r ∈ f.operands := by
  rcases h with ⟨i, hi, hn⟩ | ⟨q, hq, hr⟩
  · exact mem_operands hi hn
  · exact Fact.set.inj hq ▸ hr

/-- A slot on whose contents something relies is an operand. -/
theorem Function.Relies.filled {f : Function} {r : Register} (h : f.Relies (.filled r)) : .register r ∈ f.operands := by
  rcases h with ⟨i, hi, hn⟩ | ⟨q, hq, -⟩
  · exact mem_operands hi (i.reading_subset _ hn.2)
  · exact absurd hq (by simp)

/-- The blocks from which a phi takes its values; other instructions have none. -/
def Instruction.sources : Instruction → List BlockId
  | .phi _ _ incoming => incoming.map (·.2)
  | _ => []

/-- An instruction in the place of another: it sets the same register, gives the same facts, and stays a phi or an alloca. -/
structure Instruction.Stands (i i' : Instruction) : Prop where
  dest : i'.dest? = i.dest?
  isPhi : i'.isPhi = i.isPhi
  isAlloca : i'.isAlloca = i.isAlloca
  sources : i'.sources = i.sources
  gives : ∀ k, i.Gives k → i'.Gives k
  slot : ∀ r t, i' = .alloca r t → i = .alloca r t

/-- A row of instructions, each changed as `change` allows, or dropped as `drop` allows. -/
inductive Thinned (change : Instruction → Instruction → Prop) (drop : Instruction → Prop) :
    List Instruction → List Instruction → Prop where
  | nil : Thinned change drop [] []
  | keep {i i' : Instruction} {l l' : List Instruction} :
      change i i' → Thinned change drop l l' → Thinned change drop (i :: l) (i' :: l')
  | drop {i : Instruction} {l l' : List Instruction} : drop i → Thinned change drop l l' → Thinned change drop (i :: l) l'

/-- A block with the same name, label and edges, and changed instructions. -/
structure Block.Recast (change : Instruction → Instruction → Prop) (drop : Instruction → Prop) (B B' : Block) : Prop where
  numbered : B'.id = B.id
  label : B'.label = B.label
  successors : B'.successors = B.successors
  ended : B.terminator.isSome → B'.terminator.isSome
  thinned : Thinned change drop B.instructions B'.instructions

/-- A function with the same flow, and changed instructions. -/
structure Function.Recast (change : Instruction → Instruction → Prop) (drop : Instruction → Prop) (f f' : Function) :
    Prop where
  name : f'.name = f.name
  params : f'.params = f.params
  ret : f'.ret = f.ret
  entry : f'.entry = f.entry
  registers : f'.registers = f.registers
  blocks : List.Forall₂ (Block.Recast change drop) f.blocks f'.blocks
  stands : ∀ i i', change i i' → i.Stands i'

namespace Instruction.Stands

/-- Every instruction stands in its own place. -/
theorem refl (i : Instruction) : i.Stands i :=
  ⟨rfl, rfl, rfl, rfl, fun _ h => h, fun _ _ h => h⟩

/-- A copy to the same destination stands in the place of an instruction that is neither a phi nor an alloca. -/
theorem assign {i : Instruction} {dest : Register} (value : Value) (hd : i.dest? = some dest) (hp : i.isPhi = false)
    (ha : i.isAlloca = false) : i.Stands (.assign dest value) where
  dest := hd.symm
  isPhi := hp.symm
  isAlloca := ha.symm
  sources := by cases i <;> simp_all [Instruction.sources, Instruction.isPhi]
  gives k hk := by
    cases k with
    | set r =>
      have hr : i.dest? = some r := hk
      rw [hd] at hr
      exact hr
    | filled r =>
      obtain ⟨v, t, rfl⟩ := hk
      simp [dest?] at hd
  slot r t h := by simp at h

end Instruction.Stands

/-- The block at a place after changing every block. -/
theorem Function.block?_mapBlocks (f : Function) (change : Block → Block) (b : BlockId) :
    (f.mapBlocks change).block? b = (f.block? b).map change := by
  simp [Function.mapBlocks, Function.block?]

namespace Thinned

variable {change : Instruction → Instruction → Prop} {drop : Instruction → Prop} {l l' : List Instruction}

/-- Changing every instruction of a row. -/
theorem map {f : Instruction → Instruction} (h : ∀ i ∈ l, change i (f i)) : Thinned change drop l (l.map f) := by
  induction l with
  | nil => exact .nil
  | cons i l ih =>
    exact .keep (h i List.mem_cons_self) (ih fun j hj => h j (List.mem_cons_of_mem _ hj))

/-- Dropping what a test refuses. -/
theorem filter {keep : Instruction → Bool} (hk : ∀ i ∈ l, keep i = true → change i i)
    (hd : ∀ i ∈ l, keep i = false → drop i) : Thinned change drop l (l.filter keep) := by
  induction l with
  | nil => exact .nil
  | cons i l ih =>
    have ih := ih (fun j hj => hk j (List.mem_cons_of_mem _ hj)) fun j hj => hd j (List.mem_cons_of_mem _ hj)
    cases hi : keep i with
    | true => simpa [hi] using Thinned.keep (hk i List.mem_cons_self hi) ih
    | false => simpa [hi] using Thinned.drop (hd i List.mem_cons_self hi) ih

/-- What is left of a row, split at an instruction, comes from a split of the row. -/
theorem split (h : Thinned change drop l l') {before' after' : List Instruction} {i' : Instruction} (he : l' = before' ++ i' :: after') :
    ∃ before i after, l = before ++ i :: after ∧ Thinned change drop before before' ∧ change i i' ∧
      Thinned change drop after after' := by
  induction h generalizing before' with
  | nil => simp at he
  | @keep i j l l' hij hl ih =>
    cases before' with
    | nil =>
      rw [List.nil_append, List.cons.injEq] at he
      obtain ⟨rfl, rfl⟩ := he
      exact ⟨[], i, l, rfl, .nil, hij, hl⟩
    | cons j' before' =>
      rw [List.cons_append, List.cons.injEq] at he
      obtain ⟨rfl, rfl⟩ := he
      obtain ⟨before, k, after, rfl, hb, hk, ha⟩ := ih rfl
      exact ⟨i :: before, k, after, rfl, .keep hij hb, hk, ha⟩
  | @drop i l l' hi _ ih =>
    obtain ⟨before, k, after, rfl, hb, hk, ha⟩ := ih he
    exact ⟨i :: before, k, after, rfl, .drop hi hb, hk, ha⟩

/-- Every instruction that is left comes from one of the row. -/
theorem origin (h : Thinned change drop l l') {i' : Instruction} (hi : i' ∈ l') : ∃ i ∈ l, change i i' := by
  obtain ⟨before', after', rfl⟩ := List.append_of_mem hi
  obtain ⟨before, i, after, rfl, -, hs, -⟩ := h.split rfl
  exact ⟨i, by simp, hs⟩

/-- Every instruction of the row is dropped, or one that is left comes from it. -/
theorem image (h : Thinned change drop l l') {i : Instruction} (hi : i ∈ l) : drop i ∨ ∃ i' ∈ l', change i i' := by
  induction h with
  | nil => exact absurd hi List.not_mem_nil
  | @keep j j' l l' hj _ ih =>
    rcases List.mem_cons.mp hi with rfl | hi
    · exact .inr ⟨j', List.mem_cons_self, hj⟩
    · rcases ih hi with hd | ⟨i', hi', hs⟩
      · exact .inl hd
      · exact .inr ⟨i', List.mem_cons_of_mem _ hi', hs⟩
  | @drop j l l' hj _ ih =>
    rcases List.mem_cons.mp hi with rfl | hi
    · exact .inl hj
    · exact ih hi

section

variable (stands : ∀ i i', change i i' → i.Stands i')
include stands

variable (h : Thinned change drop l l')
include h

/-- What is left sets no other registers, in the same order. -/
theorem dests_sublist : (l'.filterMap (·.dest?)).Sublist (l.filterMap (·.dest?)) := by
  induction h with
  | nil => exact .slnil
  | @keep i i' l l' hi _ ih =>
    have hd' := (stands i i' hi).dest
    cases hd : i.dest? with
    | none => rwa [List.filterMap_cons_none hd, List.filterMap_cons_none (hd'.trans hd)]
    | some r =>
      rw [List.filterMap_cons_some hd, List.filterMap_cons_some (hd'.trans hd)]
      exact ih.cons_cons r
  | @drop i l l' _ _ ih =>
    cases hd : i.dest? with
    | none => rwa [List.filterMap_cons_none hd]
    | some r =>
      rw [List.filterMap_cons_some hd]
      exact ih.cons r

/-- A phi that is left stands first if it did so in the row. -/
theorem tail_isPhi (hp : ∀ i ∈ l.tail, i.isPhi = false) : ∀ i ∈ l'.tail, i.isPhi = false := by
  have aux : ∀ {l l'}, Thinned change drop l l' → (∀ i ∈ l, i.isPhi = false) → ∀ i ∈ l', i.isPhi = false := by
    intro l l' h hl i' hi'
    obtain ⟨i, hi, hs⟩ := h.origin hi'
    rw [(stands i i' hs).isPhi, hl i hi]
  cases h with
  | nil => exact hp
  | keep _ h => exact aux h hp
  | drop _ h => exact fun i hi => aux h hp i (List.mem_of_mem_tail hi)

/-- Allocas that are left stand first if they did so in the row. -/
theorem slotsFirst (hl : Function.SlotsFirst l) : Function.SlotsFirst l' := by
  rw [Function.slotsFirst_iff] at hl ⊢
  induction h with
  | nil => exact .nil
  | @keep i i' l l' hi h ih =>
    obtain ⟨hhead, htail⟩ := List.pairwise_cons.mp hl
    refine .cons (fun j' hj' ha => ?_) (ih htail)
    obtain ⟨j, hj, hjs⟩ := h.origin hj'
    rw [(stands i i' hi).isAlloca]
    exact hhead j hj ((stands j j' hjs).isAlloca ▸ ha)
  | drop _ _ ih => exact ih (List.pairwise_cons.mp hl).2

end

end Thinned

/-- If every block sets no other registers, in the same order, neither do all blocks together. -/
theorem Function.dests_sublist_of_blocks {l l' : List Block}
    (h : List.Forall₂ (fun B B' => (B'.instructions.filterMap (·.dest?)).Sublist (B.instructions.filterMap (·.dest?))) l l') :
    ((l'.flatMap (·.instructions)).filterMap (·.dest?)).Sublist ((l.flatMap (·.instructions)).filterMap (·.dest?)) := by
  induction h with
  | nil => exact .slnil
  | cons hr _ ih =>
    simp only [List.flatMap_cons, List.filterMap_append]
    exact hr.append ih

namespace Function.Recast

variable {change : Instruction → Instruction → Prop} {drop : Instruction → Prop} {f f' : Function} {b : BlockId}

variable (h : f.Recast change drop f')
include h

/-- A block of the changed function comes from the block at its place. -/
theorem origin {B' : Block} (hB : f'.block? b = some B') : ∃ B, f.block? b = some B ∧ B.Recast change drop B' := by
  obtain ⟨hlt, rfl⟩ := List.getElem?_eq_some_iff.mp hB
  have hlt' : b < f.blocks.length := h.blocks.length_eq ▸ hlt
  exact ⟨f.blocks[b], List.getElem?_eq_getElem hlt', h.blocks.get hlt' hlt⟩

/-- A block of the function has a changed block at its place. -/
theorem image {B : Block} (hB : f.block? b = some B) : ∃ B', f'.block? b = some B' ∧ B.Recast change drop B' := by
  obtain ⟨hlt, rfl⟩ := List.getElem?_eq_some_iff.mp hB
  have hlt' : b < f'.blocks.length := h.blocks.length_eq ▸ hlt
  exact ⟨f'.blocks[b], List.getElem?_eq_getElem hlt', h.blocks.get hlt hlt'⟩

theorem origin_mem {B' : Block} (hB : B' ∈ f'.blocks) : ∃ B ∈ f.blocks, B.Recast change drop B' := by
  obtain ⟨b, hb⟩ := exists_block? hB
  obtain ⟨B, hB, hr⟩ := h.origin hb
  exact ⟨B, List.mem_of_getElem? hB, hr⟩

/-- An instruction of the changed function comes from one of the function. -/
theorem origin_instruction {i' : Instruction} (hi : i' ∈ f'.instructions) : ∃ i ∈ f.instructions, change i i' := by
  obtain ⟨B', hB', hiB⟩ := List.mem_flatMap.mp hi
  obtain ⟨B, hB, hr⟩ := h.origin_mem hB'
  obtain ⟨i, hi, hc⟩ := hr.thinned.origin hiB
  exact ⟨i, List.mem_flatMap.mpr ⟨B, hB, hi⟩, hc⟩

/-- An instruction of the function is dropped, or one of the changed function comes from it. -/
theorem image_instruction {i : Instruction} (hi : i ∈ f.instructions) : drop i ∨ ∃ i' ∈ f'.instructions, change i i' := by
  obtain ⟨b, B, hb, hiB⟩ := mem_instructions.mp hi
  obtain ⟨B', hB', hr⟩ := h.image hb
  rcases hr.thinned.image hiB with hd | ⟨i', hi', hc⟩
  · exact .inl hd
  · exact .inr ⟨i', mem_of_block? hB' hi', hc⟩

theorem precedes_iff (p b : BlockId) : f'.Precedes p b ↔ f.Precedes p b := by
  constructor
  · rintro ⟨P', hP', hs⟩
    obtain ⟨P, hP, hr⟩ := h.origin hP'
    exact ⟨P, hP, hr.successors ▸ hs⟩
  · rintro ⟨P, hP, hs⟩
    obtain ⟨P', hP', hr⟩ := h.image hP
    exact ⟨P', hP', hr.successors.symm ▸ hs⟩

theorem labels_eq : f'.labels = f.labels := by
  have : ∀ {l l'}, List.Forall₂ (Block.Recast change drop) l l' → l'.map (·.label) = l.map (·.label) := by
    intro l l' hl
    induction hl with
    | nil => rfl
    | cons hr _ ih => rw [List.map_cons, List.map_cons, hr.label, ih]
  exact this h.blocks

/-- The registers that the changed function sets, in their order. -/
theorem dests_sublist : (f'.instructions.filterMap (·.dest?)).Sublist (f.instructions.filterMap (·.dest?)) :=
  dests_sublist_of_blocks (h.blocks.imp fun _ _ hr => hr.thinned.dests_sublist h.stands)

/-- The changed function has the shape of a function, if it defines what it uses. -/
theorem shaped (hf : f.Shaped) (hd : ∀ r, .register r ∈ f'.operands → ∃ i ∈ f'.instructions, i.dest? = some r) : f'.Shaped where
  entry_lt := by rw [h.entry, ← h.blocks.length_eq]; exact hf.entry_lt
  ids b B' hB' := by
    obtain ⟨B, hB, hr⟩ := h.origin hB'
    exact hr.numbered.trans (hf.ids b B hB)
  labels := h.labels_eq ▸ hf.labels
  once := hf.once.sublist h.dests_sublist
  sized i' hi' r hr := by
    obtain ⟨i, hi, hc⟩ := h.origin_instruction hi'
    rw [h.registers]
    exact hf.sized i hi r ((h.stands i i' hc).dest ▸ hr)
  defined := hd
  ended B' hB' := by
    obtain ⟨B, hB, hr⟩ := h.origin_mem hB'
    exact hr.ended (hf.ended B hB)
  targets B' hB' s hs := by
    obtain ⟨B, hB, hr⟩ := h.origin_mem hB'
    rw [← h.blocks.length_eq]
    exact hf.targets B hB s (hr.successors ▸ hs)
  entry_free B' hB' hs := by
    obtain ⟨B, hB, hr⟩ := h.origin_mem hB'
    exact hf.entry_free B hB (h.entry ▸ hr.successors ▸ hs)
  phi_first B' hB' := by
    obtain ⟨B, hB, hr⟩ := h.origin_mem hB'
    exact hr.thinned.tail_isPhi h.stands (hf.phi_first B hB)
  phi_entry B' hB' i' hi' := by
    obtain ⟨B, hB, hr⟩ := h.origin hB'
    obtain ⟨i, hi, hc⟩ := hr.thinned.origin hi'
    rw [(h.stands i i' hc).isPhi]
    exact hf.phi_entry B (h.entry ▸ hB) i hi
  phi_edges b B' dest' type' incoming' rest' hB' he := by
    obtain ⟨B, hB, hr⟩ := h.origin hB'
    obtain ⟨i, rest, hl, hc⟩ : ∃ i rest, B.instructions = i :: rest ∧ change i (.phi dest' type' incoming') := by
      obtain ⟨before, i, after, hl, -, hc, -⟩ := hr.thinned.split (he.trans (List.nil_append _).symm)
      have hphi : i.isPhi = true := (h.stands i _ hc).isPhi.symm
      rw [hf.phi_head (List.mem_of_getElem? hB) hl hphi, List.nil_append] at hl
      exact ⟨i, after, hl, hc⟩
    obtain ⟨dest, type, incoming, rfl⟩ := Instruction.eq_phi (h.stands i _ hc).isPhi.symm
    have hsrc : incoming'.map (·.2) = incoming.map (·.2) := (h.stands _ _ hc).sources
    rw [hsrc]
    obtain ⟨hn, hp⟩ := hf.phi_edges b B dest type incoming rest hB hl
    exact ⟨hn, fun p => (hp p).trans (h.precedes_iff p b).symm⟩
  slots_first b B' hB' := by
    obtain ⟨B, hB, hr⟩ := h.origin hB'
    refine (hr.thinned.slotsFirst h.stands (hf.slotsFirst hB)).parts fun hb i' hi' => ?_
    obtain ⟨i, hi, hc⟩ := hr.thinned.origin hi'
    rw [(h.stands i i' hc).isAlloca]
    exact hf.isAlloca_outside_entry hB (h.entry ▸ hb) hi

/-- A fact that no dropped instruction gives holds at a place of the changed function if it held at the place in the
function. -/
theorem holds {k : Fact} (hk : ∀ i ∈ f.instructions, drop i → ¬i.Gives k) {B : Block} (hB : f.block? b = some B)
    {before before' : List Instruction} (hsub : ∀ i ∈ before, i ∈ B.instructions) (hb : Thinned change drop before before')
    (hold : f.Holds k b before) : f'.Holds k b before' := by
  -- An instruction that gives the fact is not dropped, and what comes in its place gives it too.
  have gives : ∀ {b B l l'}, f.block? b = some B → (∀ i ∈ l, i ∈ B.instructions) → Thinned change drop l l' →
      (∃ i ∈ l, i.Gives k) → ∃ i ∈ l', i.Gives k := by
    rintro b B l l' hB hsub hl ⟨i, hi, hg⟩
    have hmem : i ∈ f.instructions := mem_of_block? hB (hsub i hi)
    rcases hl.image hi with hd | ⟨i', hi', hc⟩
    · exact absurd hg (hk i hmem hd)
    · exact ⟨i', hi', (h.stands i i' hc).gives k hg⟩
  rcases hold with hold | hold
  · exact .inl (gives hB hsub hb hold)
  · refine .inr fun hr => hold ?_
    refine Reaches.transfer id ?_ ?_ hr
    · rw [id, h.entry]
      exact .entry
    · intro b B' s hB' hn hs ih
      obtain ⟨B, hB, hr⟩ := h.origin hB'
      exact ih.edge hB (fun hg => hn (gives hB (fun _ hi => hi) hr.thinned hg)) (hr.successors ▸ hs)

/-- What is used in the changed function is there, if it was there at the place of the function, and if what the dropped
instructions gave is not used. -/
theorem settled (hdrop : ∀ i ∈ f.instructions, drop i → ∀ k, i.Gives k → ¬f'.Relies k)
    (hinstruction : ∀ b B B' before i after before' i' after', f.block? b = some B → f'.block? b = some B' →
      B.instructions = before ++ i :: after → B'.instructions = before' ++ i' :: after' → change i i' →
      Thinned change drop before before' → i'.isPhi = false → ∀ k, f'.Needs i' k → f.Holds k b before)
    (hend : ∀ b B B' t' r, f.block? b = some B → f'.block? b = some B' → B'.terminator = some t' →
      .register r ∈ t'.operands → f.Holds (.set r) b B.instructions)
    (hedge : ∀ dest type incoming, .phi dest type incoming ∈ f'.instructions → ∀ r p P, (.register r, p) ∈ incoming →
      f.block? p = some P → f.Holds (.set r) p P.instructions) : f'.Settled where
  at_instruction b B' before' i' after' hB' hl' hphi k hk := by
    obtain ⟨B, hB, hr⟩ := h.origin hB'
    obtain ⟨before, i, after, hl, hb, hc, -⟩ := hr.thinned.split hl'
    refine h.holds (fun j hj hd hg => hdrop j hj hd k hg (.inl ⟨i', ?_, hk⟩)) hB (fun j hj => ?_) hb ?_
    · exact mem_of_block? hB' (by simp [hl'])
    · simp [hl, hj]
    · exact hinstruction b B B' before i after before' i' after' hB hB' hl hl' hc hb hphi k hk
  at_end b B' t' r hB' ht hr := by
    obtain ⟨B, hB, hBr⟩ := h.origin hB'
    refine h.holds (fun j hj hd hg => hdrop j hj hd _ hg (.inr ⟨r, rfl, mem_operands_end hB' ht hr⟩)) hB (fun _ hj => hj) hBr.thinned ?_
    exact hend b B B' t' r hB hB' ht hr
  at_edge B' hB' dest type incoming hphi r p P' hv hP' := by
    obtain ⟨P, hP, hPr⟩ := h.origin hP'
    have hmem : .phi dest type incoming ∈ f'.instructions := List.mem_flatMap.mpr ⟨B', hB', hphi⟩
    refine h.holds (fun j hj hd hg => hdrop j hj hd _ hg (.inr ⟨r, rfl, ?_⟩)) hP (fun _ hj => hj) hPr.thinned ?_
    · exact mem_operands hmem (List.mem_map.mpr ⟨_, hv, rfl⟩)
    · exact hedge dest type incoming hmem r p P hv hP

/-- A slot of the changed function was a slot before. -/
theorem isSlot {r : Register} (hr : f'.IsSlot r) : f.IsSlot r := by
  obtain ⟨t, ht⟩ := hr
  obtain ⟨i, hi, hc⟩ := h.origin_instruction ht
  exact ⟨t, (h.stands i _ hc).slot r t rfl ▸ hi⟩

/-- A block that can be entered in the changed function could be entered before. -/
theorem reachable (hr : f'.Reachable b) : f.Reachable b := by
  refine Reaches.transfer id ?_ ?_ hr
  · rw [id, h.entry]
    exact .entry
  · intro b B' s hB' _ hs ih
    obtain ⟨B, hB, hr⟩ := h.origin hB'
    exact ih.edge hB (fun h => h) (hr.successors ▸ hs)

/-- A change that makes instructions use less, keeps phis and terminators, drops only what is not used, and keeps instructions
typed, keeps a function well formed. -/
theorem wellFormed {I : Interface} (hf : f.WellFormed I) (hdrop : ∀ i ∈ f.instructions, drop i → ∀ k, i.Gives k → ¬f'.Relies k)
    (hless : ∀ i i', change i i' → (∀ r, .register r ∈ i'.operands → .register r ∈ i.operands) ∧
      ∀ r, .register r ∈ i'.reading → .register r ∈ i.reading)
    (hphi : ∀ i dest type incoming, change i (.phi dest type incoming) → i = .phi dest type incoming)
    (hend : ∀ b B B', f.block? b = some B → f'.block? b = some B' → B'.terminator = B.terminator)
    (htyped : ∀ (γ : Grading) i i', i ∈ f.instructions → γ.Types i → change i i' → γ.Types i') : f'.WellFormed I := by
  have hops : ∀ r, .register r ∈ f'.operands → .register r ∈ f.operands := by
    intro r hr
    rcases operands_cases hr with ⟨b, B', i', hB', hi', hr⟩ | ⟨b, B', t, hB', ht, hr⟩
    · obtain ⟨i, hi, hc⟩ := h.origin_instruction (mem_of_block? hB' hi')
      exact mem_operands hi ((hless i i' hc).1 r hr)
    · obtain ⟨B, hB, -⟩ := h.origin hB'
      exact mem_operands_end hB ((hend b B B' hB hB').symm.trans ht) hr
  refine ⟨h.shaped hf.shaped fun r hr => ?_, ?_, ?_, ?_⟩
  · obtain ⟨i, hi, hir⟩ := hf.shaped.defined r (hops r hr)
    rcases h.image_instruction hi with hd | ⟨i', hi', hc⟩
    · exact absurd (.inr ⟨r, rfl, hr⟩) (hdrop i hi hd (.set r) hir)
    · exact ⟨i', hi', (h.stands i i' hc).dest.trans hir⟩
  · refine h.settled hdrop ?_ ?_ ?_
    · intro b B B' before i after before' i' after' hB _ hl _ hc _ hphi' k hk
      have hi : i.isPhi = false := (h.stands i i' hc).isPhi ▸ hphi'
      refine hf.settled.at_instruction b B before i after hB hl hi k ?_
      cases k with
      | set r => exact (hless i i' hc).1 r hk
      | filled r => exact ⟨h.isSlot hk.1, (hless i i' hc).2 r hk.2⟩
    · intro b B B' t' r hB hB' ht hr
      exact hf.settled.at_end b B t' r hB ((hend b B B' hB hB').symm.trans ht) hr
    · intro dest type incoming hmem r p P hv hP
      obtain ⟨i, hi, hc⟩ := h.origin_instruction hmem
      obtain ⟨B, hB, hiB⟩ := List.mem_flatMap.mp (hphi i dest type incoming hc ▸ hi)
      exact hf.settled.at_edge B hB dest type incoming hiB r p P hv hP
  · obtain ⟨γ, hI, hsig, hp, hty, hte⟩ := hf.typed
    refine ⟨γ, hI, h.name ▸ h.ret ▸ hsig, h.params ▸ hp, fun i' hi' => ?_, fun B' hB' t ht => ?_⟩
    · obtain ⟨i, hi, hc⟩ := h.origin_instruction hi'
      exact htyped γ i i' hi (hty i hi) hc
    · obtain ⟨b, hb'⟩ := exists_block? hB'
      obtain ⟨B, hB, -⟩ := h.origin hb'
      rw [h.ret]
      exact hte B (List.mem_of_getElem? hB) t ((hend b B B' hB hb').symm.trans ht)
  · intro b B' hr hB' ht
    obtain ⟨B, hB, -⟩ := h.origin hB'
    exact hf.no_dead_end b B (h.reachable hr) hB ((hend b B B' hB hB').symm.trans ht)

end Function.Recast

end Ember.IR
