import Ember.Pass.Slot
import Ember.Proofs.Pass.Recast

/-!
# Removing instructions

Dead instructions and dead slots are removed by a test on single instructions. What is removed sets registers, or fills slots, that
nothing left in the function uses, so the function stays well formed.
-/

namespace Ember.IR

namespace Registers

/-- The members of a set after inserting the members of a list. -/
theorem mem_foldl_insert (l : List Register) (s : Registers) (r : Register) : r ∈ l.foldl (·.insert ·) s ↔ r ∈ s ∨ r ∈ l := by
  induction l generalizing s with
  | nil => simp
  | cons a l ih =>
    rw [List.foldl_cons, ih, Std.TreeSet.mem_insert, Nat.compare_eq_eq, List.mem_cons]
    grind

/-- The members of a set after erasing the members of a list. -/
theorem mem_foldl_erase (l : List Register) (s : Registers) (r : Register) : r ∈ l.foldl (·.erase ·) s ↔ r ∈ s ∧ r ∉ l := by
  induction l generalizing s with
  | nil => simp
  | cons a l ih =>
    rw [List.foldl_cons, ih, Std.TreeSet.mem_erase, ne_eq, Nat.compare_eq_eq, List.mem_cons]
    grind

end Registers

namespace Function

variable {I : Interface} {f : Function} {r : Register}

/-- The registers that are used are those that are operands. -/
theorem mem_usedRegisters : r ∈ f.usedRegisters ↔ .register r ∈ f.operands := by
  have hfold : ∀ step : Registers → Value → Registers, (∀ s v, r ∈ step s v ↔ r ∈ s ∨ v = .register r) → ∀ (l : List Value) (s : Registers),
      r ∈ l.foldl step s ↔ r ∈ s ∨ .register r ∈ l := by
    intro step hstep l
    induction l with
    | nil => simp
    | cons v l ih =>
      intro s
      rw [List.foldl_cons, ih, List.mem_cons, hstep]
      grind
  refine (hfold _ (fun s v => ?_) f.operands ∅).trans (by simp)
  cases v with
  | register q =>
    rw [Std.TreeSet.mem_insert, Nat.compare_eq_eq, Value.register.injEq]
    grind
  | _ => simp

/-- The local slots are the slots whose address is only loaded from and stored to. -/
theorem mem_localSlots : r ∈ f.localSlots ↔ f.IsSlot r ∧ .register r ∉ f.escapingOperands := by
  rw [localSlots, Registers.mem_foldl_erase, Registers.mem_foldl_insert]
  have hslot : r ∈ f.instructions.filterMap (·.slot?) ↔ f.IsSlot r := by
    rw [List.mem_filterMap]
    constructor
    · rintro ⟨i, hi, hs⟩
      cases i <;> simp_all [Instruction.slot?, IsSlot]
      exact ⟨_, hi⟩
    · rintro ⟨t, ht⟩
      exact ⟨_, ht, rfl⟩
  have hesc : r ∈ f.escapingOperands.filterMap (·.register?) ↔ .register r ∈ f.escapingOperands := by
    rw [List.mem_filterMap]
    constructor
    · rintro ⟨v, hv, hr⟩
      cases v <;> simp_all [Value.register?]
    · exact fun h => ⟨_, h, rfl⟩
  rw [hslot, hesc]
  simp

/-- The dead slots are the local slots that are not loaded. -/
theorem mem_deadSlots : r ∈ f.deadSlots ↔ r ∈ f.localSlots ∧ ∀ i ∈ f.instructions, i.loadedSlot? ≠ some r := by
  rw [deadSlots, Registers.mem_foldl_erase, List.mem_filterMap]
  grind

/-- Removing instructions keeps a function well formed, if what they set or fill is not used by the rest. -/
theorem WellFormed.filterInstructions (hf : f.WellFormed I) (keep : Instruction → Bool)
    (hdrop : ∀ i ∈ f.instructions, keep i = false → ∀ k, i.Gives k → ¬(f.filterInstructions keep).Relies k) :
    (f.filterInstructions keep).WellFormed I := by
  let change (i i' : Instruction) : Prop := i' = i
  have hrecast : f.Recast change (fun i => keep i = false) (f.filterInstructions keep) := by
    refine ⟨rfl, rfl, rfl, rfl, rfl, ?_, fun i i' hc => hc ▸ .refl i⟩
    rw [Function.filterInstructions, mapBlocks, List.forall₂_map_right_iff, List.forall₂_same]
    intro B _
    exact ⟨rfl, rfl, rfl, id, Thinned.filter (fun _ _ _ => rfl) fun _ _ h => h⟩
  refine hrecast.wellFormed hf hdrop ?_ ?_ ?_ ?_
  · rintro i i' rfl
    exact ⟨fun _ h => h, fun _ h => h⟩
  · exact fun i dest type incoming hc => hc.symm
  · intro b B B' hB hB'
    rw [Function.filterInstructions, block?_mapBlocks, hB] at hB'
    exact Option.some.inj hB' ▸ rfl
  · rintro γ i i' - hi rfl
    exact hi

/-- What is left after removing instructions uses no more than before. -/
theorem mem_operands_of_filterInstructions {keep : Instruction → Bool} {v : Value} (h : v ∈ (f.filterInstructions keep).operands) :
    v ∈ f.operands := by
  obtain ⟨B', hB', hv⟩ := List.mem_flatMap.mp h
  obtain ⟨B, hB, rfl⟩ := List.mem_map.mp hB'
  refine List.mem_flatMap.mpr ⟨B, hB, ?_⟩
  rcases List.mem_append.mp hv with hv | hv
  · obtain ⟨j, hj, hv⟩ := List.mem_flatMap.mp hv
    exact List.mem_append_left _ (List.mem_flatMap.mpr ⟨j, List.mem_of_mem_filter hj, hv⟩)
  · exact List.mem_append_right _ hv

/-- A sweep removes what sets a register that nothing uses. -/
theorem WellFormed.sweep (hf : f.WellFormed I) : f.sweep.WellFormed I := by
  refine hf.filterInstructions _ fun i hi hdead k hk hrel => ?_
  unfold isLive at hdead
  cases k with
  | set r =>
    rw [show i.dest? = some r from hk, Bool.or_eq_false_iff] at hdead
    have hused : .register r ∈ f.operands := mem_operands_of_filterInstructions (Relies.register hrel)
    rw [← mem_usedRegisters, ← Std.TreeSet.contains_iff_mem] at hused
    simp [hused] at hdead
  | filled r =>
    obtain ⟨v, t, rfl⟩ := hk
    simp [Instruction.dest?] at hdead

/-- Removing dead instructions keeps a function well formed. -/
theorem WellFormed.removeDead (hf : f.WellFormed I) : f.removeDead.2.WellFormed I := by
  have : ∀ fuel (g : Function), g.WellFormed I → (g.sweepWithin fuel).WellFormed I := by
    intro fuel
    induction fuel with
    | zero => exact fun g hg => hg
    | succ fuel ih =>
      intro g hg
      rw [sweepWithin]
      split
      · exact hg
      · exact ih _ hg.sweep
  exact this _ f hf

/-- Nothing that is left uses a dead slot. -/
theorem not_mem_operands_of_dead (hr : r ∈ f.deadSlots) : .register r ∉ (f.filterInstructions (sparesSlots f.deadSlots)).operands := by
  intro hop
  obtain ⟨hlocal, hload⟩ := mem_deadSlots.mp hr
  obtain ⟨-, hesc⟩ := mem_localSlots.mp hlocal
  obtain ⟨B', hB', hop⟩ := List.mem_flatMap.mp hop
  obtain ⟨B, hB, rfl⟩ := List.mem_map.mp hB'
  refine hesc (List.mem_flatMap.mpr ⟨B, hB, ?_⟩)
  rcases List.mem_append.mp hop with hop | hop
  · obtain ⟨i, hi, hop⟩ := List.mem_flatMap.mp hop
    obtain ⟨hiB, hkeep⟩ := List.mem_filter.mp hi
    refine List.mem_append_left _ (List.mem_flatMap.mpr ⟨i, hiB, ?_⟩)
    cases i with
    | load dest pointer type =>
      rw [Instruction.operands, List.mem_singleton] at hop
      exact absurd (by rw [← hop]; rfl) (hload _ (List.mem_flatMap.mpr ⟨B, hB, hiB⟩))
    | store pointer value type =>
      rcases List.mem_pair.mp hop with rfl | rfl
      · simp [sparesSlots, Value.slotIn?, Std.TreeSet.contains_iff_mem, hr] at hkeep
      · exact List.mem_singleton.mpr rfl
    | _ => exact hop
  · exact List.mem_append_right _ hop

/-- Removing dead slots keeps a function well formed. -/
theorem WellFormed.removeDeadSlots (hf : f.WellFormed I) : f.removeDeadSlots.2.WellFormed I := by
  refine hf.filterInstructions _ fun i _ hdead k hk hrel => ?_
  -- A dropped instruction allocates a dead slot or stores to one.
  obtain ⟨r, hr, rfl | rfl⟩ : ∃ r, r ∈ f.deadSlots ∧ (k = .set r ∨ k = .filled r) := by
    cases i with
    | alloca dest type =>
      refine ⟨dest, by simpa [sparesSlots, Std.TreeSet.contains_iff_mem] using hdead, ?_⟩
      cases k with
      | set r => exact .inl (by rw [Option.some.inj (show some dest = some r from hk)])
      | filled r =>
        obtain ⟨v, t, h⟩ := hk
        simp at h
    | store pointer value type =>
      cases k with
      | set r => simp [Instruction.Gives, Instruction.dest?] at hk
      | filled r =>
        obtain ⟨v, t, h⟩ := hk
        rw [Instruction.store.injEq] at h
        obtain ⟨rfl, -, -⟩ := h
        refine ⟨r, ?_, .inr rfl⟩
        by_contra hn
        rw [← Std.TreeSet.contains_iff_mem] at hn
        simp [sparesSlots, Value.slotIn?, hn] at hdead
    | _ => simp [sparesSlots] at hdead
  · exact not_mem_operands_of_dead hr (Relies.register hrel)
  · exact not_mem_operands_of_dead hr (Relies.filled hrel)

end Function

end Ember.IR
