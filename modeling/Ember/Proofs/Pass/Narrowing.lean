import Ember.Pass.Flow
import Ember.Proofs.Pass.Recast
import Mathlib.Data.List.Flatten

/-!
# Fewer blocks and edges

Settling branches removes edges, and removing what is never reached removes blocks and renumbers the others. `Narrowed` describes
such a change by the place that each block had. Ways of the new function are ways of the old one, so every value that was there
still is; what is left to show for each change is that the edges of the phis are those of the flow.
-/

namespace Ember.IR

namespace Instruction

variable (i : Instruction) (g : List (Value × BlockId) → List (Value × BlockId))

@[simp] theorem dest?_mapIncoming : (i.mapIncoming g).dest? = i.dest? := by cases i <;> rfl

@[simp] theorem isPhi_mapIncoming : (i.mapIncoming g).isPhi = i.isPhi := by cases i <;> rfl

@[simp] theorem isAlloca_mapIncoming : (i.mapIncoming g).isAlloca = i.isAlloca := by cases i <;> rfl

@[simp] theorem mapIncoming_id : i.mapIncoming id = i := by cases i <;> rfl

/-- Only a phi has edges. -/
theorem mapIncoming_of_not_phi (h : i.isPhi = false) : i.mapIncoming g = i := by
  cases i <;> first | rfl | simp [isPhi] at h

/-- A phi with other edges was a phi. -/
theorem mapIncoming_eq_phi {i : Instruction} {g : List (Value × BlockId) → List (Value × BlockId)} {dest : Register} {type : Ty}
    {incoming' : List (Value × BlockId)} (h : i.mapIncoming g = .phi dest type incoming') :
    ∃ incoming, i = .phi dest type incoming ∧ incoming' = g incoming := by
  cases i with
  | phi dest' type' incoming =>
    cases h
    exact ⟨incoming, rfl, rfl⟩
  | _ => cases h

/-- Edges that bring the same values bring no other operands. -/
theorem operands_mapIncoming {i : Instruction} {g : List (Value × BlockId) → List (Value × BlockId)}
    (hg : ∀ incoming, ∀ e ∈ g incoming, ∃ e' ∈ incoming, e'.1 = e.1) {v : Value} (hv : v ∈ (i.mapIncoming g).operands) :
    v ∈ i.operands := by
  cases i with
  | phi dest type incoming =>
    obtain ⟨e, he, rfl⟩ := List.mem_map.mp hv
    obtain ⟨e', he', heq⟩ := hg incoming e he
    exact List.mem_map.mpr ⟨e', he', heq⟩
  | _ => exact hv

/-- An instruction gives the same facts whatever the edges of a phi. -/
@[simp] theorem gives_mapIncoming (k : Fact) : (i.mapIncoming g).Gives k ↔ i.Gives k := by
  cases k with
  | set r => simp [Gives]
  | filled r => cases i <;> simp [Gives, mapIncoming]

end Instruction

/-- A terminator that leads to fewer blocks, which were numbered by `place`. -/
structure Terminator.Narrowed (place : BlockId → BlockId) (t t' : Terminator) : Prop where
  successors : ∀ s ∈ t'.successors, place s ∈ t.successors
  operands : ∀ v ∈ t'.operands, v ∈ t.operands
  dead_end : t' = .unreachable → t = .unreachable
  typed : ∀ (γ : Grading) ret, γ.TypesEnd ret t → γ.TypesEnd ret t'

/-- A block with fewer edges in and out. -/
structure Block.Narrowed (place : BlockId → BlockId) (B B' : Block) : Prop where
  label : B'.label = B.label
  instructions : ∃ g, B'.instructions = B.instructions.map (·.mapIncoming g) ∧
    ∀ incoming v p, (v, p) ∈ g incoming → (v, place p) ∈ incoming
  terminator : ∀ t', B'.terminator = some t' → ∃ t, B.terminator = some t ∧ t.Narrowed place t'
  ended : B.terminator.isSome → B'.terminator.isSome

/-- A function with fewer blocks and edges; `place` is the number that each block had. -/
structure Function.Narrowed (place : BlockId → BlockId) (f f' : Function) : Prop where
  name : f'.name = f.name
  params : f'.params = f.params
  ret : f'.ret = f.ret
  registers : f'.registers = f.registers
  ids : ∀ b B', f'.block? b = some B' → B'.id = b
  entry_lt : f'.entry < f'.blocks.length
  entry : ∀ b, b < f'.blocks.length → (place b = f.entry ↔ b = f'.entry)
  blocks : ∀ b B', f'.block? b = some B' → ∃ B, f.block? (place b) = some B ∧ B.Narrowed place B'
  targets : ∀ B' ∈ f'.blocks, ∀ s ∈ B'.successors, s < f'.blocks.length
  rows : ∃ kept : List Block, kept.Sublist f.blocks ∧ List.Forall₂ (Block.Narrowed place) kept f'.blocks

namespace Block.Narrowed

variable {place : BlockId → BlockId} {B B' : Block}

theorem successors (h : B.Narrowed place B') {s : BlockId} (hs : s ∈ B'.successors) : place s ∈ B.successors := by
  cases ht' : B'.terminator with
  | none => simp [Block.successors, ht'] at hs
  | some t' =>
    obtain ⟨t, ht, hn⟩ := h.terminator t' ht'
    simp only [Block.successors, ht', ht] at hs ⊢
    exact hn.successors s hs

/-- A block with fewer edges gives the same facts. -/
theorem gives (h : B.Narrowed place B') (k : Fact) : B'.Gives k ↔ B.Gives k := by
  obtain ⟨g, hg, -⟩ := h.instructions
  constructor
  · rintro ⟨i', hi', hk⟩
    rw [hg] at hi'
    obtain ⟨i, hi, rfl⟩ := List.mem_map.mp hi'
    exact ⟨i, hi, (i.gives_mapIncoming g k).mp hk⟩
  · rintro ⟨i, hi, hk⟩
    exact ⟨_, hg ▸ List.mem_map.mpr ⟨i, hi, rfl⟩, (i.gives_mapIncoming g k).mpr hk⟩

end Block.Narrowed

namespace Function.Narrowed

variable {place : BlockId → BlockId} {f f' : Function}

variable (h : f.Narrowed place f')
include h

theorem mem_origin {B' : Block} (hB : B' ∈ f'.blocks) : ∃ B ∈ f.blocks, B.Narrowed place B' := by
  obtain ⟨b, hb⟩ := exists_block? hB
  obtain ⟨B, hB, hn⟩ := h.blocks b B' hb
  exact ⟨B, List.mem_of_getElem? hB, hn⟩

/-- Every instruction comes from one of the function. -/
theorem origin_instruction {i' : Instruction} (hi : i' ∈ f'.instructions) :
    ∃ i ∈ f.instructions, ∃ g, i' = i.mapIncoming g ∧ ∀ incoming v p, (v, p) ∈ g incoming → (v, place p) ∈ incoming := by
  obtain ⟨B', hB', hi⟩ := List.mem_flatMap.mp hi
  obtain ⟨B, hB, hn⟩ := h.mem_origin hB'
  obtain ⟨g, hg, hsub⟩ := hn.instructions
  rw [hg] at hi
  obtain ⟨i, hiB, rfl⟩ := List.mem_map.mp hi
  exact ⟨i, List.mem_flatMap.mpr ⟨B, hB, hiB⟩, g, rfl, hsub⟩

/-- Every operand is an operand of the function. -/
theorem operands {v : Value} (hv : v ∈ f'.operands) : v ∈ f.operands := by
  rcases operands_cases hv with ⟨b, B', i', hB', hi', hv⟩ | ⟨b, B', t', hB', ht', hv⟩
  · obtain ⟨i, hi, g, rfl, hsub⟩ := h.origin_instruction (mem_of_block? hB' hi')
    exact mem_operands hi (Instruction.operands_mapIncoming (fun incoming e he => ⟨(e.1, place e.2), hsub incoming e.1 e.2 he, rfl⟩) hv)
  · obtain ⟨B, hB, hn⟩ := h.blocks b B' hB'
    obtain ⟨t, ht, htn⟩ := hn.terminator t' ht'
    exact mem_operands_end hB ht (htn.operands v hv)

/-- The labels are some of those of the function. -/
theorem labels_sublist : f'.labels.Sublist f.labels := by
  obtain ⟨kept, hk, hb⟩ := h.rows
  have : ∀ {l l'}, List.Forall₂ (Block.Narrowed place) l l' → l'.map (·.label) = l.map (·.label) := by
    intro l l' hl
    induction hl with
    | nil => rfl
    | cons hn _ ih => rw [List.map_cons, List.map_cons, hn.label, ih]
  rw [labels, this hb]
  exact hk.map _

/-- The registers that are set are some of those of the function. -/
theorem dests_sublist : (f'.instructions.filterMap (·.dest?)).Sublist (f.instructions.filterMap (·.dest?)) := by
  obtain ⟨kept, hk, hb⟩ := h.rows
  refine (dests_sublist_of_blocks (hb.imp fun B B' hn => ?_)).trans ((hk.flatMap _).filterMap _)
  obtain ⟨g, hg, -⟩ := hn.instructions
  rw [hg, List.filterMap_map]
  simp

/-- Ways of the new function are ways of the old one. -/
theorem reaches {avoid avoid' : Block → Prop} (havoid : ∀ B B', B.Narrowed place B' → avoid B → avoid' B') {b : BlockId}
    (hr : f'.Reaches avoid' b) : f.Reaches avoid (place b) := by
  refine Reaches.transfer place ?_ ?_ hr
  · rw [(h.entry _ h.entry_lt).mpr rfl]
    exact .entry
  · intro b B' s hB' hn hs ih
    obtain ⟨B, hB, hnar⟩ := h.blocks b B' hB'
    exact ih.edge hB (fun ha => hn (havoid B B' hnar ha)) (hnar.successors hs)

/-- What held at the place of a block holds at the same place of the new one. -/
theorem holds {k : Fact} {b : BlockId} {before : List Instruction} {g : List (Value × BlockId) → List (Value × BlockId)}
    (hold : f.Holds k (place b) before) : f'.Holds k b (before.map (·.mapIncoming g)) := by
  rcases hold with ⟨i, hi, hk⟩ | hno
  · exact .inl ⟨_, List.mem_map.mpr ⟨i, hi, rfl⟩, (i.gives_mapIncoming g k).mpr hk⟩
  · exact .inr fun hr => hno (h.reaches (fun B B' hn hg => (hn.gives k).mpr hg) hr)

variable (hdefined : ∀ r, .register r ∈ f'.operands → ∃ i ∈ f'.instructions, i.dest? = some r)
  (hedges : ∀ b B' dest type incoming rest, f'.block? b = some B' → B'.instructions = .phi dest type incoming :: rest →
    (incoming.map (·.2)).Nodup ∧ ∀ p, p ∈ incoming.map (·.2) ↔ f'.Precedes p b)
include hdefined hedges

/-- A function with fewer blocks and edges has the shape of a function, if it defines what it uses, and its phis follow the
flow. -/
theorem shaped (hf : f.Shaped) : f'.Shaped where
  entry_lt := h.entry_lt
  ids := h.ids
  labels := hf.labels.sublist h.labels_sublist
  once := hf.once.sublist h.dests_sublist
  sized i' hi' r hr := by
    obtain ⟨i, hi, g, rfl, -⟩ := h.origin_instruction hi'
    rw [h.registers]
    exact hf.sized i hi r (by simpa using hr)
  defined := hdefined
  ended B' hB' := by
    obtain ⟨B, hB, hn⟩ := h.mem_origin hB'
    exact hn.ended (hf.ended B hB)
  targets := h.targets
  entry_free B' hB' hs := by
    obtain ⟨B, hB, hn⟩ := h.mem_origin hB'
    exact hf.entry_free B hB ((h.entry _ h.entry_lt).mpr rfl ▸ hn.successors hs)
  phi_first B' hB' i' hi' := by
    obtain ⟨B, hB, hn⟩ := h.mem_origin hB'
    obtain ⟨g, hg, -⟩ := hn.instructions
    rw [hg, ← List.map_tail] at hi'
    obtain ⟨i, hi, rfl⟩ := List.mem_map.mp hi'
    simpa using hf.phi_first B hB i hi
  phi_entry B' hB' i' hi' := by
    obtain ⟨B, hB, hn⟩ := h.blocks _ B' hB'
    obtain ⟨g, hg, -⟩ := hn.instructions
    rw [hg] at hi'
    obtain ⟨i, hi, rfl⟩ := List.mem_map.mp hi'
    simpa using hf.phi_entry B ((h.entry _ h.entry_lt).mpr rfl ▸ hB) i hi
  phi_edges := hedges
  slots_first b B' hB' := by
    obtain ⟨B, hB, hn⟩ := h.blocks b B' hB'
    obtain ⟨g, hg, -⟩ := hn.instructions
    rw [hg]
    refine ((hf.slotsFirst hB).map fun i => i.isAlloca_mapIncoming g).parts fun hb i' hi' => ?_
    obtain ⟨i, hi, rfl⟩ := List.mem_map.mp hi'
    simpa using hf.isAlloca_outside_entry hB (fun hp => hb ((h.entry b (lt_of_block? hB')).mp hp)) hi

omit hdefined hedges in
/-- Every value is there where it was. -/
theorem settled (hs : f.Settled) : f'.Settled where
  at_instruction b B' before' i' after' hB' hl' hphi k hk := by
    obtain ⟨B, hB, hn⟩ := h.blocks b B' hB'
    obtain ⟨g, hg, hsub⟩ := hn.instructions
    rw [hg] at hl'
    obtain ⟨before, tail, hl, rfl, htail⟩ := List.map_eq_append_iff.mp hl'
    obtain ⟨i, after, rfl, rfl, -⟩ := List.map_eq_cons_iff.mp htail
    rw [Instruction.isPhi_mapIncoming] at hphi
    refine h.holds (hs.at_instruction _ B before i after hB hl hphi k ?_)
    rw [i.mapIncoming_of_not_phi g hphi] at hk
    cases k with
    | set r => exact hk
    | filled r =>
      obtain ⟨⟨t, ht⟩, hr⟩ := hk
      refine ⟨⟨t, ?_⟩, hr⟩
      obtain ⟨j, hj, g', hj', -⟩ := h.origin_instruction ht
      cases j <;> simp_all [Instruction.mapIncoming]
  at_end b B' t' r hB' ht' hr := by
    obtain ⟨B, hB, hn⟩ := h.blocks b B' hB'
    obtain ⟨g, hg, -⟩ := hn.instructions
    obtain ⟨t, ht, htn⟩ := hn.terminator t' ht'
    rw [hg]
    exact h.holds (hs.at_end _ B t r hB ht (htn.operands _ hr))
  at_edge B' hB' dest type incoming' hphi r p P' hv hP' := by
    obtain ⟨B, hB, hn⟩ := h.mem_origin hB'
    obtain ⟨g, hg, hsub⟩ := hn.instructions
    obtain ⟨P, hP, hnP⟩ := h.blocks p P' hP'
    obtain ⟨g', hg', -⟩ := hnP.instructions
    rw [hg] at hphi
    obtain ⟨i, hi, he⟩ := List.mem_map.mp hphi
    obtain ⟨incoming, rfl, rfl⟩ := Instruction.mapIncoming_eq_phi he
    rw [hg']
    exact h.holds (hs.at_edge B hB _ _ incoming hi r (place p) P (hsub _ _ _ hv) hP)

/-- A function with fewer blocks and edges stays well formed, if it defines what it uses, and its phis follow the flow. -/
theorem wellFormed {I : Interface} (hf : f.WellFormed I) : f'.WellFormed I where
  shaped := h.shaped hdefined hedges hf.shaped
  settled := h.settled hf.settled
  typed := by
    obtain ⟨γ, hI, hsig, hp, hty, hte⟩ := hf.typed
    refine ⟨γ, hI, h.name ▸ h.ret ▸ hsig, h.params ▸ hp, fun i' hi' => ?_, fun B' hB' t' ht' => ?_⟩
    · obtain ⟨i, hi, g, rfl, hsub⟩ := h.origin_instruction hi'
      exact (hty i hi).mapIncoming fun incoming e he => ⟨(e.1, place e.2), hsub incoming e.1 e.2 he, rfl⟩
    · obtain ⟨B, hB, hn⟩ := h.mem_origin hB'
      obtain ⟨t, ht, htn⟩ := hn.terminator t' ht'
      rw [h.ret]
      exact htn.typed γ _ (hte B hB t ht)
  no_dead_end b B' hr hB' ht' := by
    obtain ⟨B, hB, hn⟩ := h.blocks b B' hB'
    obtain ⟨t, ht, htn⟩ := hn.terminator _ ht'
    exact hf.no_dead_end _ B (h.reaches (fun _ _ _ h => h) hr) hB (htn.dead_end rfl ▸ ht)

end Function.Narrowed

end Ember.IR
