import Ember.Proofs.IR.WellFormed

/-!
# Static single assignment

A well-formed function is in static single assignment form: every register is set once, at a place that dominates its uses, and phis
stand at the start of blocks and follow the flow (`WellFormed.isSSA`). Dominance is stated with walks from the entry; that every walk to
a use passes the definition comes from `Settled`, where the same is said of facts.
-/

namespace Ember.IR.Function

/-- A walk from the entry to a block, last block first. -/
inductive Walk (f : Function) : List BlockId → BlockId → Prop where
  | entry : Walk f [f.entry] f.entry
  | step {l : List BlockId} {b s : BlockId} : Walk f l b → f.Precedes b s → Walk f (s :: l) s

/-- Every walk to block `b` passes block `d`. -/
def Dominates (f : Function) (d b : BlockId) : Prop :=
  ∀ l, f.Walk l b → d ∈ l

/-- The register is set on every way to the place of block `b` behind its first `n` instructions: further up in the block, or in a
block that dominates it. -/
def SetBefore (f : Function) (r : Register) (b : BlockId) (n : Nat) : Prop :=
  ∃ p P k i, f.block? p = some P ∧ P.instructions[k]? = some i ∧ i.dest? = some r ∧ if p = b then k < n else f.Dominates p b

/-- Static single assignment: blocks are named by their positions and have labels of their own, every register is set once and on every
way to its uses, a block has at most one phi, which stands first and has one edge for each block before it, and nothing leads to the
entry. -/
structure IsSSA (f : Function) : Prop where
  ids : ∀ b B, f.block? b = some B → B.id = b
  labels : f.labels.Nodup
  once : (f.instructions.filterMap (·.dest?)).Nodup
  instruction_uses : ∀ b B n i r, f.Reachable b → f.block? b = some B → B.instructions[n]? = some i → i.isPhi = false →
    .register r ∈ i.operands → f.SetBefore r b n
  terminator_uses : ∀ b B t r, f.Reachable b → f.block? b = some B → B.terminator = some t → .register r ∈ t.operands →
    f.SetBefore r b B.instructions.length
  edge_uses : ∀ b B dest type incoming r p, f.block? b = some B → .phi dest type incoming ∈ B.instructions →
    (.register r, p) ∈ incoming → ∃ P, f.block? p = some P ∧ f.SetBefore r p P.instructions.length
  phi_first : ∀ b B n i, f.block? b = some B → B.instructions[n]? = some i → i.isPhi = true → n = 0
  phi_edges : ∀ b B dest type incoming, f.block? b = some B → .phi dest type incoming ∈ B.instructions →
    (incoming.map (·.2)).Nodup ∧ ∀ p, p ∈ incoming.map (·.2) ↔ f.Precedes p b
  entry_free : ∀ p, ¬f.Precedes p f.entry

variable {I : Interface} {f : Function} {b p : BlockId} {r : Register} {B : Block}

/-- A walk that does not pass the block of a definition avoids the definition. -/
theorem Walk.reaches {l : List BlockId} {avoid : Block → Prop} (h : f.Walk l b) (havoid : ∀ c C, c ∈ l → f.block? c = some C → ¬avoid C) :
    f.Reaches avoid b := by
  have hlast : ∀ {l b}, f.Walk l b → b ∈ l := fun h => by cases h <;> exact List.mem_cons_self
  induction h with
  | entry => exact .entry
  | step hw hp ih =>
    obtain ⟨B, hB, hs⟩ := hp
    refine (ih fun c C hc hC => havoid c C (List.mem_cons_of_mem _ hc) hC).edge hB ?_ hs
    exact havoid _ B (List.mem_cons_of_mem _ (hlast hw)) hB

/-- If a block can be entered, but not without passing blocks of a kind, then one of these can be entered without passing them. -/
theorem Reaches.first {avoid : Block → Prop} (hb : f.Reachable b) (hno : ¬f.Reaches avoid b) :
    ∃ d D, f.Reaches avoid d ∧ f.block? d = some D ∧ avoid D := by
  induction hb with
  | entry => exact absurd .entry hno
  | @edge c s C _ hC _ hs ih =>
    by_cases hc : f.Reaches avoid c
    · by_cases ha : avoid C
      · exact ⟨c, C, hc, hC, ha⟩
      · exact absurd (hc.edge hC ha hs) hno
    · exact ih hc

/-- The only place where a register is set dominates the block, if no way to the block avoids it. -/
theorem Shaped.dominates (hf : f.Shaped) {P : Block} {i : Instruction} (hP : f.block? p = some P) (hi : i ∈ P.instructions)
    (hr : i.dest? = some r) (hno : ¬f.Reaches (·.Gives (.set r)) b) : f.Dominates p b := by
  intro l hl
  by_contra hp
  refine hno (hl.reaches fun c C hc hC ⟨j, hj, hjr⟩ => hp ?_)
  rwa [(hf.unique hP hC hi hj hr hjr).1]

/-- What holds of a register at a place of a block that can be entered: it is set on every way to it. -/
theorem Shaped.setBefore (hf : f.Shaped) {n : Nat} (hb : f.Reachable b) (hB : f.block? b = some B)
    (h : f.Holds (.set r) b (B.instructions.take n)) : f.SetBefore r b n := by
  rcases h with ⟨i, hi, hr⟩ | hno
  · obtain ⟨k, hk, rfl⟩ := List.mem_iff_getElem.mp hi
    rw [List.length_take] at hk
    rw [List.getElem_take] at hr
    exact ⟨b, B, k, _, hB, List.getElem?_eq_getElem (by omega), hr, by rw [if_pos rfl]; omega⟩
  · obtain ⟨d, D, hd, hD, i, hi, hr⟩ := Reaches.first hb hno
    obtain ⟨k, hk, rfl⟩ := List.mem_iff_getElem.mp hi
    have hne : d ≠ b := fun he => hno (he ▸ hd)
    refine ⟨d, D, k, _, hD, List.getElem?_eq_getElem hk, hr, ?_⟩
    rw [if_neg hne]
    exact hf.dominates hD hi hr hno

/-- What holds of a register at the end of a block: it is set on every way to it. -/
theorem Shaped.setBefore_end (hf : f.Shaped) (hB : f.block? b = some B) (hr : ∃ i ∈ f.instructions, i.dest? = some r)
    (h : f.Holds (.set r) b B.instructions) : f.SetBefore r b B.instructions.length := by
  obtain ⟨i, hi, hir⟩ := hr
  obtain ⟨p, P, hp, hi⟩ := mem_instructions.mp hi
  obtain ⟨k, hk, rfl⟩ := List.mem_iff_getElem.mp hi
  refine ⟨p, P, k, _, hp, List.getElem?_eq_getElem hk, hir, ?_⟩
  split
  · rename_i he
    subst he
    obtain rfl : P = B := Option.some.inj (hp.symm.trans hB)
    exact hk
  · rename_i hne
    rcases h with ⟨j, hj, hjr⟩ | hno
    · exact absurd (hf.unique hp hB hi hj hir hjr).1 hne
    · exact hf.dominates hp hi hir hno

/-- A phi of a block with the shape of a function stands first. -/
theorem Shaped.phi_zero (hf : f.Shaped) {n : Nat} {i : Instruction} (hB : f.block? b = some B) (hi : B.instructions[n]? = some i)
    (hphi : i.isPhi = true) : n = 0 := by
  cases n with
  | zero => rfl
  | succ n =>
    have hmem : i ∈ B.instructions.tail := List.mem_of_getElem? ((List.getElem?_tail ..).trans hi)
    simp [hf.phi_first B (List.mem_of_getElem? hB) i hmem] at hphi

/-- A well-formed function is in static single assignment form. -/
theorem WellFormed.isSSA (hf : f.WellFormed I) : f.IsSSA where
  ids := hf.shaped.ids
  labels := hf.shaped.labels
  once := hf.shaped.once
  instruction_uses := by
    intro b B n i r hb hB hi hphi hr
    obtain ⟨hn, rfl⟩ := List.getElem?_eq_some_iff.mp hi
    have hl : B.instructions = B.instructions.take n ++ B.instructions[n] :: B.instructions.drop (n + 1) := by
      rw [List.getElem_cons_drop, List.take_append_drop]
    exact hf.shaped.setBefore hb hB (hf.settled.at_instruction b B _ _ _ hB hl hphi (.set r) hr)
  terminator_uses := by
    intro b B t r hb hB ht hr
    refine hf.shaped.setBefore hb hB ?_
    rw [List.take_length]
    exact hf.settled.at_end b B t r hB ht hr
  edge_uses := by
    intro b B dest type incoming r p hB hi hr
    obtain ⟨P, hP, -⟩ := ((hf.shaped.phi_edges_of_mem hB hi).2 p).mp (List.mem_map.mpr ⟨_, hr, rfl⟩)
    have hop : .register r ∈ f.operands := mem_operands (mem_of_block? hB hi) (List.mem_map.mpr ⟨_, hr, rfl⟩)
    exact ⟨P, hP, hf.shaped.setBefore_end hP (hf.shaped.defined r hop)
      (hf.settled.at_edge B (List.mem_of_getElem? hB) dest type incoming hi r p P hr hP)⟩
  phi_first := fun _ _ _ _ hB hi hphi => hf.shaped.phi_zero hB hi hphi
  phi_edges := fun _ _ _ _ _ hB hi => hf.shaped.phi_edges_of_mem hB hi
  entry_free := fun _ ⟨P, hP, hs⟩ => hf.shaped.entry_free P (List.mem_of_getElem? hP) hs

end Ember.IR.Function
