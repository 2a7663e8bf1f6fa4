import Ember.Proofs.Pass.Splice

/-!
# Ways after inlining

A way through the caller after inlining is a way through the caller before, with ways through the callee in the place of the call. So
what held before the call holds in the whole copy, what held behind it holds behind the copy, and what held at a place of the callee
holds at its place in the copy. The slots of the callee are allocated at the start of the caller, which every way passes.
-/

namespace Ember.IR

/-- Whether a test accepts some instruction of the block. -/
def Block.Any (p : Instruction → Prop) (B : Block) : Prop :=
  ∃ i ∈ B.instructions, p i

/-- A fact about a register of the callee, as a fact about the register of the copy. -/
def Fact.shift (n : Nat) : Fact → Fact
  | .set r => .set (n + r)
  | .filled r => .filled (n + r)

namespace Function

variable {I : Interface} {f callee f' : Function} {s : Splice} {b : Block} {i : Instruction}

/-- The call that is inlined stands where it is said to. -/
structure CallAt (f callee : Function) (s : Splice) (b : Block) : Prop where
  block : f.block? s.block = some b
  instructions : b.instructions = s.before ++ .call s.dest callee.name s.args s.ret :: s.after
  terminator : b.terminator = s.terminator

/-- The call is an instruction of the caller. -/
theorem CallAt.mem_call (hs : f.CallAt callee s b) : .call s.dest callee.name s.args s.ret ∈ f.instructions :=
  mem_of_block? hs.block (by simp [hs.instructions])

theorem CallAt.successors (hs : f.CallAt callee s b) : s.successors = b.successors := by
  simp only [Splice.successors, Block.successors, hs.terminator]

variable {x : BlockId} {X' : Block} {t : Transplant}

/-- The blocks of the function after inlining. -/
theorem Spliced.block?_cases (h : f.Spliced callee s f') (hX' : f'.block? x = some X') :
    (∃ X, f.block? x = some X ∧ X' = s.ownBlock f callee x X) ∨
      (x = f.blocks.length ∧ X'.instructions = s.result f callee ++ s.after ∧ X'.terminator = s.terminator) ∨
      ∃ j C, x = f.blocks.length + 1 + j ∧ callee.block? j = some C ∧
        X'.instructions = (s.transplant f callee).copy C.instructions ∧
        X'.terminator = some ((s.transplant f callee).terminator C.terminator) := by
  have hx : x < f'.blocks.length := lt_of_block? hX'
  rw [h.length] at hx
  rcases Nat.lt_trichotomy x f.blocks.length with hlt | rfl | hgt
  · have hX : f.block? x = some f.blocks[x] := List.getElem?_eq_getElem hlt
    exact .inl ⟨_, hX, Option.some.inj (hX'.symm.trans (h.own x _ hX))⟩
  · obtain ⟨label, hnext⟩ := h.next
    cases hX'.symm.trans hnext
    exact .inr (.inl ⟨rfl, rfl, rfl⟩)
  · obtain ⟨j, rfl⟩ : ∃ j, x = f.blocks.length + 1 + j := ⟨x - (f.blocks.length + 1), by lia⟩
    have hj : j < callee.blocks.length := by lia
    have hC : callee.block? j = some callee.blocks[j] := List.getElem?_eq_getElem hj
    obtain ⟨label, hcopy⟩ := h.copied j _ hC
    cases hX'.symm.trans hcopy
    exact .inr (.inr ⟨j, _, rfl, hC, rfl, rfl⟩)

/-- The blocks of the function after inlining are named by their positions, if those of the caller are. -/
theorem Spliced.ids (h : f.Spliced callee s f') (hids : ∀ x X, f.block? x = some X → X.id = x) (hX' : f'.block? x = some X') :
    X'.id = x := by
  rcases h.block?_cases hX' with ⟨X, hX, rfl⟩ | ⟨rfl, -⟩ | ⟨j, C, rfl, hC, -⟩
  · exact hids x X hX
  · obtain ⟨label, hnext⟩ := h.next
    cases hX'.symm.trans hnext
    rfl
  · obtain ⟨label, hcopy⟩ := h.copied j C hC
    cases hX'.symm.trans hcopy
    rfl

/-- The instructions of a block of the copy. -/
theorem Spliced.instructions_copied (h : f.Spliced callee s f') {j : BlockId} {C : Block} (hC : callee.block? j = some C)
    (hX' : f'.block? (f.blocks.length + 1 + j) = some X') : X'.instructions = (s.transplant f callee).copy C.instructions := by
  obtain ⟨label, hcopy⟩ := h.copied j C hC
  cases hX'.symm.trans hcopy
  rfl

/-- The instructions of a block of the caller: what is left of it, and in the entry the slots of the copy. -/
theorem mem_ownBlock {X : Block} : i ∈ (s.ownBlock f callee x X).instructions ↔ i ∈ s.own f x X ∨ x = f.entry ∧ i ∈ s.slots f callee := by
  have : i ∈ s.own f x X ↔ i ∈ (s.own f x X).takeWhile (·.isAlloca) ∨ i ∈ (s.own f x X).dropWhile (·.isAlloca) := by
    rw [← List.mem_append, List.takeWhile_append_dropWhile]
  rw [this, Splice.ownBlock]
  by_cases hx : x = f.entry
  · simp only [hx, if_true, List.mem_append]
    tauto
  · simp only [hx, if_false, List.append_nil, List.mem_append, false_and, or_false]

/-- The blocks that may follow those of the copy. -/
theorem successors_transplanted {term : Option Terminator} {y : BlockId} (hy : y ∈ (t.terminator term).successors) :
    (y = t.next ∧ ∃ v, term = some (.ret v)) ∨ ∃ j t', term = some t' ∧ j ∈ t'.successors ∧ y = t.firstBlock + j := by
  cases term with
  | none => exact absurd hy List.not_mem_nil
  | some term =>
    cases term with
    | ret v => exact .inl ⟨List.mem_singleton.mp hy, v, rfl⟩
    | jump target => exact .inr ⟨target, _, rfl, List.mem_singleton.mpr rfl, List.mem_singleton.mp hy⟩
    | branch cond yes no =>
      rcases List.mem_pair.mp hy with rfl | rfl
      · exact .inr ⟨yes, _, rfl, by simp [Terminator.successors], rfl⟩
      · exact .inr ⟨no, _, rfl, by simp [Terminator.successors], rfl⟩
    | unreachable => exact absurd hy List.not_mem_nil

theorem successors_ownBlock {X : Block} : (s.ownBlock f callee x X).successors =
    if x = s.block then [f.blocks.length + 1 + callee.entry] else X.successors := by
  by_cases hx : x = s.block <;> simp [Splice.ownBlock, Block.successors, hx, Terminator.successors]

/-- What brings the result of the call sets its destination. -/
theorem gives_result {k : Fact} (hk : Instruction.Gives (.call s.dest callee.name s.args s.ret) k) :
    ∃ i ∈ s.result f callee, i.Gives k := by
  cases k with
  | set r =>
    have hd : s.dest = some r := hk
    rw [Splice.result, Splice.bring, hd]
    refine ⟨_, List.mem_singleton.mpr rfl, ?_⟩
    unfold resultOf
    split <;> rfl
  | filled r =>
    obtain ⟨v, t, hv⟩ := hk
    cases hv

section

variable (h : f.Spliced callee s f') (hs : f.CallAt callee s b) (hf : f.Shaped)
include h hs hf

variable {k : Fact} {x y : BlockId}

/-! ## Ways -/

/-- The edges after inlining: those of the caller, where the call leads into the copy; those of the block behind the call; and those
of the callee in the copy, which returns to that block. -/
theorem Spliced.edge_cases (hX' : f'.block? x = some X') (hy : y ∈ X'.successors) :
    (∃ X, f.block? x = some X ∧ X' = s.ownBlock f callee x X ∧
        (x = s.block ∧ y = f.blocks.length + 1 + callee.entry ∨ x ≠ s.block ∧ y ∈ X.successors ∧ y < f.blocks.length)) ∨
      (x = f.blocks.length ∧ X'.instructions = s.result f callee ++ s.after ∧ y ∈ b.successors ∧ y < f.blocks.length) ∨
      ∃ j C, x = f.blocks.length + 1 + j ∧ callee.block? j = some C ∧
        X'.instructions = (s.transplant f callee).copy C.instructions ∧
        ((y = f.blocks.length ∧ ∃ v, C.terminator = some (.ret v)) ∨ ∃ j' ∈ C.successors, y = f.blocks.length + 1 + j') := by
  rcases h.block?_cases hX' with ⟨X, hX, rfl⟩ | ⟨rfl, hi, ht⟩ | ⟨j, C, rfl, hC, hi, ht⟩
  · refine .inl ⟨X, hX, rfl, ?_⟩
    rw [successors_ownBlock] at hy
    by_cases hx : x = s.block
    · exact .inl ⟨hx, by simpa [hx] using hy⟩
    · rw [if_neg hx] at hy
      exact .inr ⟨hx, hy, hf.targets X (List.mem_of_getElem? hX) y hy⟩
  · have hyb : y ∈ b.successors := by simpa [Block.successors, ht, hs.terminator] using hy
    exact .inr (.inl ⟨rfl, hi, hyb, hf.targets b (List.mem_of_getElem? hs.block) y hyb⟩)
  · refine .inr (.inr ⟨j, C, rfl, hC, hi, ?_⟩)
    rw [Block.successors, ht] at hy
    rcases successors_transplanted hy with hret | ⟨j', t', hterm, hj', rfl⟩
    · exact .inl hret
    · exact .inr ⟨j', by simpa [Block.successors, hterm] using hj', rfl⟩

/-- Ways of the caller after inlining: outside the call they are ways of the caller before, and in the copy and behind it they come
from the place of the call. -/
theorem Spliced.reaches_caller {p : Instruction → Prop} (hedges : ∀ i g, p i → p (i.mapIncoming g))
    (hcall : p (.call s.dest callee.name s.args s.ret) → ∃ i ∈ s.result f callee, p i) (hr : f'.Reaches (·.Any p) x) :
    (x < f.blocks.length → f.Reaches (·.Any p) x) ∧
      (f.blocks.length ≤ x → f.Reaches (·.Any p) s.block ∧ ∀ i ∈ s.before, ¬p i) := by
  induction hr with
  | entry => rw [h.entry]; exact ⟨fun _ => .entry, fun hle => absurd hf.entry_lt (Nat.not_lt.mpr hle)⟩
  | @edge x y X' _ hX' hav hy ih =>
    rcases h.edge_cases hs hf hX' hy with ⟨X, hX, rfl, hcase⟩ | ⟨rfl, hi, hyb, hlt⟩ | ⟨j, C, rfl, -, -, hy⟩
    · have hx := ih.1 (lt_of_block? hX)
      have hown : ∀ i ∈ (if x = s.block then s.before else X.instructions), ¬p i := fun i hi hp =>
        hav ⟨_, mem_ownBlock.mpr (.inl (List.mem_map.mpr ⟨i, hi, rfl⟩)), hedges i _ hp⟩
      rcases hcase with ⟨rfl, rfl⟩ | ⟨hc, hy, hlt⟩
      · rw [if_pos rfl] at hown
        exact ⟨fun hlt => by lia, fun _ => ⟨hx, hown⟩⟩
      · rw [if_neg hc] at hown
        exact ⟨fun _ => hx.edge hX (fun ⟨i, hi, hp⟩ => hown i hi hp) hy, fun hle => absurd hlt (Nat.not_lt.mpr hle)⟩
    · obtain ⟨hreach, hbefore⟩ := ih.2 (Nat.le_refl _)
      refine ⟨fun _ => hreach.edge hs.block ?_ hyb, fun hle => absurd hlt (Nat.not_lt.mpr hle)⟩
      rintro ⟨i, hib, hp⟩
      rw [hs.instructions] at hib
      rcases List.mem_append.mp hib with hib | hib
      · exact hbefore i hib hp
      · rcases List.mem_cons.mp hib with rfl | hib
        · obtain ⟨i, hires, hp⟩ := hcall hp
          exact hav ⟨i, hi ▸ List.mem_append_left _ hires, hp⟩
        · exact hav ⟨i, hi ▸ List.mem_append_right _ hib, hp⟩
    · refine ⟨fun hlt => ?_, fun _ => ih.2 (by lia)⟩
      rcases hy with ⟨rfl, -⟩ | ⟨j', -, rfl⟩ <;> lia

/-- Ways into the copy are ways of the callee. -/
theorem Spliced.reaches_callee {p q : Instruction → Prop} (hcopy : ∀ i ∈ callee.instructions, p i → i.isAlloca = false ∧
      q ((s.transplant f callee).instruction i)) (hr : f'.Reaches (·.Any q) x) :
    ∀ j, x = f.blocks.length + 1 + j → callee.Reaches (·.Any p) j := by
  induction hr with
  | entry =>
    intro j hj
    rw [h.entry] at hj
    exact absurd hf.entry_lt (by rw [hj]; lia)
  | @edge x y X' _ hX' hav hy ih =>
    intro j hj
    rcases h.edge_cases hs hf hX' hy with ⟨X, hX, rfl, ⟨-, rfl⟩ | ⟨-, -, hlt⟩⟩ | ⟨rfl, -, -, hlt⟩ |
      ⟨k, C, rfl, hC, hi, ⟨rfl, -⟩ | ⟨j', hj', rfl⟩⟩
    · obtain rfl : callee.entry = j := Nat.add_left_cancel hj
      exact .entry
    · lia
    · lia
    · lia
    · obtain rfl : j' = j := Nat.add_left_cancel hj
      refine (ih k rfl).edge hC (fun ⟨i, hiC, hp⟩ => ?_) hj'
      obtain ⟨ha, hq⟩ := hcopy i (mem_of_block? hC hiC) hp
      exact hav ⟨_, hi ▸ List.mem_map.mpr ⟨i, List.mem_filter.mpr ⟨hiC, by simp [ha]⟩, rfl⟩, hq⟩

/-! ## Facts -/

/-- What held at a place of the caller holds at the same place, as far as it is left. -/
theorem Spliced.holds_own (hx : x < f.blocks.length) {before before' : List Instruction}
    (hsub : ∀ i ∈ before, ∃ g, i.mapIncoming g ∈ before') (hold : f.Holds k x before) : f'.Holds k x before' := by
  rcases hold with ⟨i, hi, hg⟩ | hno
  · obtain ⟨g, hi'⟩ := hsub i hi
    exact .inl ⟨_, hi', (i.gives_mapIncoming g k).mpr hg⟩
  · refine .inr fun hr => hno ?_
    exact (h.reaches_caller hs hf (fun i g => (i.gives_mapIncoming g k).mpr) (gives_result) hr).1 hx

/-- What held before the call holds in the copy and behind it. -/
theorem Spliced.holds_behind (hx : f.blocks.length ≤ x) (before' : List Instruction) (hold : f.Holds k s.block s.before) :
    f'.Holds k x before' := by
  refine .inr fun hr => ?_
  obtain ⟨hreach, hbefore⟩ :=
    (h.reaches_caller hs hf (fun i g => (i.gives_mapIncoming g k).mpr) (gives_result) hr).2 hx
  rcases hold with ⟨i, hi, hg⟩ | hno
  · exact hbefore i hi hg
  · exact hno hreach

/-- What held at a place behind the call holds at its place in the block behind the copy. -/
theorem Spliced.holds_next {more : List Instruction}
    (hold : f.Holds k s.block (s.before ++ .call s.dest callee.name s.args s.ret :: more)) :
    f'.Holds k f.blocks.length (s.result f callee ++ more) := by
  rcases hold with ⟨i, hi, hg⟩ | hno
  · rcases List.mem_append.mp hi with hi | hi
    · exact h.holds_behind hs hf (Nat.le_refl _) _ (.of_gives hi hg)
    · rcases List.mem_cons.mp hi with rfl | hi
      · obtain ⟨i, hi, hg⟩ := gives_result hg
        exact .of_gives (List.mem_append_left _ hi) hg
      · exact .of_gives (List.mem_append_right _ hi) hg
  · exact h.holds_behind hs hf (Nat.le_refl _) _ (.inr hno)

/-- What held at a place of the callee holds at its place in the copy, unless it is about a slot being there. -/
theorem Spliced.holds_copy {j : BlockId} {before : List Instruction} (hbefore : ∀ i ∈ before, i ∈ callee.instructions)
    (hcopy : ∀ i ∈ callee.instructions, i.Gives k → i.isAlloca = false ∧
      ((s.transplant f callee).instruction i).Gives (k.shift f.registers.size)) (hold : callee.Holds k j before) :
    f'.Holds (k.shift f.registers.size) (f.blocks.length + 1 + j) ((s.transplant f callee).copy before) := by
  rcases hold with ⟨i, hi, hg⟩ | hno
  · obtain ⟨ha, hg⟩ := hcopy i (hbefore i hi) hg
    exact .of_gives (List.mem_map.mpr ⟨i, List.mem_filter.mpr ⟨hi, by simp [ha]⟩, rfl⟩) hg
  · exact .inr fun hr => hno (h.reaches_callee hs hf hcopy hr j rfl)

omit hs in
/-- The slots of the copy are there in every block but the entry. -/
theorem Spliced.holds_slot {r : Register} (hr : callee.IsSlot r) (hx : x ≠ f.entry) (before' : List Instruction) :
    f'.Holds (.set (f.registers.size + r)) x before' := by
  obtain ⟨t, ht⟩ := hr
  obtain ⟨E, hE⟩ : ∃ E, f.block? f.entry = some E := ⟨_, List.getElem?_eq_getElem hf.entry_lt⟩
  have hE' := h.own f.entry E hE
  rw [← h.entry] at hE' hx
  have hslot : .alloca (f.registers.size + r) t ∈ (s.ownBlock f callee f'.entry E).instructions :=
    mem_ownBlock.mpr (.inr ⟨h.entry, List.mem_map.mpr ⟨_, List.mem_filter.mpr ⟨ht, rfl⟩, rfl⟩⟩)
  have hgives : Instruction.Gives (.alloca (f.registers.size + r) t) (.set (f.registers.size + r)) := rfl
  exact Holds.outside_entry hE' (List.append_nil _).symm (.of_gives hslot hgives) hx before'

end

/-! ## The names of the copy -/

section

variable (t : Transplant) (i : Instruction)

@[simp] theorem dest?_transplanted : (t.instruction i).dest? = i.dest?.map (t.firstRegister + ·) := by
  cases i <;> rfl

@[simp] theorem isPhi_transplanted : (t.instruction i).isPhi = i.isPhi := by cases i <;> rfl

@[simp] theorem isAlloca_transplanted : (t.instruction i).isAlloca = i.isAlloca := by cases i <;> rfl

theorem operands_transplanted : (t.instruction i).operands = i.operands.map t.value := by
  cases i <;> simp [Transplant.instruction, Instruction.mapOperands, Instruction.mapDest, Instruction.mapIncoming,
    Instruction.operands]

theorem reading_transplanted : (t.instruction i).reading = i.reading.map t.value := by
  cases i <;> simp [Transplant.instruction, Instruction.mapOperands, Instruction.mapDest, Instruction.mapIncoming,
    Instruction.reading]

end

/-- The operands of a terminator of the copy come from those of the callee. -/
theorem operands_transplanted_terminator {term : Option Terminator} {v' : Value} (hv : v' ∈ (t.terminator term).operands) :
    ∃ t', term = some t' ∧ ∃ v ∈ t'.operands, t.value v = v' := by
  cases term with
  | none => exact absurd hv List.not_mem_nil
  | some term =>
    refine ⟨term, rfl, ?_⟩
    cases term with
    | branch cond yes no => exact ⟨cond, List.mem_singleton.mpr rfl, (List.mem_singleton.mp hv).symm⟩
    | _ => exact absurd hv List.not_mem_nil

/-- A register that stands for an operand of the callee is a register of the copy, or an argument. -/
theorem value_eq_register {v : Value} {r : Register} (h : t.value v = .register r) :
    (∃ q, v = .register q ∧ q < t.registers ∧ r = t.firstRegister + q) ∨
      ∃ i, v = .parameter i ∧ t.args[i]? = some (.register r) := by
  cases v with
  | register q =>
    simp only [Transplant.value] at h
    split at h
    · rename_i hq
      cases h
      exact .inl ⟨q, rfl, hq, rfl⟩
    · cases h
  | parameter i =>
    simp only [Transplant.value] at h
    refine .inr ⟨i, rfl, ?_⟩
    cases ha : t.args[i]? with
    | none => simp [ha] at h
    | some a => simpa [ha] using h
  | _ => cases h

/-- Where an instruction of the function after inlining comes from. -/
theorem Spliced.origin (h : f.Spliced callee s f') {i' : Instruction} (hX' : f'.block? x = some X') (hi' : i' ∈ X'.instructions) :
    (∃ X i, f.block? x = some X ∧ i ∈ (if x = s.block then s.before else X.instructions) ∧ i' = i.mapIncoming (s.edges f x)) ∨
      (x = f.entry ∧ ∃ r t, .alloca r t ∈ callee.instructions ∧ i' = .alloca (f.registers.size + r) t) ∨
      (x = f.blocks.length ∧ i' ∈ s.result f callee) ∨
      (x = f.blocks.length ∧ i' ∈ s.after) ∨
      ∃ j C i, x = f.blocks.length + 1 + j ∧ callee.block? j = some C ∧ i ∈ C.instructions ∧ i.isAlloca = false ∧
        i' = (s.transplant f callee).instruction i := by
  rcases h.block?_cases hX' with ⟨X, hX, rfl⟩ | ⟨rfl, hi, -⟩ | ⟨j, C, rfl, hC, hi, -⟩
  · rcases mem_ownBlock.mp hi' with hi' | ⟨rfl, hslot⟩
    · obtain ⟨i, hi, rfl⟩ := List.mem_map.mp hi'
      exact .inl ⟨X, i, hX, hi, rfl⟩
    · obtain ⟨i, hi, rfl⟩ := List.mem_map.mp hslot
      obtain ⟨hi, ha⟩ := List.mem_filter.mp hi
      cases i with
      | alloca r t => exact .inr (.inl ⟨rfl, r, t, hi, rfl⟩)
      | _ => cases ha
  · rw [hi] at hi'
    rcases List.mem_append.mp hi' with hi' | hi'
    · exact .inr (.inr (.inl ⟨rfl, hi'⟩))
    · exact .inr (.inr (.inr (.inl ⟨rfl, hi'⟩)))
  · rw [hi] at hi'
    obtain ⟨i, hi, rfl⟩ := List.mem_map.mp hi'
    obtain ⟨hi, ha⟩ := List.mem_filter.mp hi
    exact .inr (.inr (.inr (.inr ⟨j, C, i, rfl, hC, hi, by simpa using ha, rfl⟩)))

/-! ## The shape -/

/-- What brings the result: the only value that the copy returns, or a phi of all of them. -/
theorem result_cases (hi : i ∈ s.result f callee) : ∃ dest, s.dest = some dest ∧
    ((∃ v p, s.returns f callee = [(v, p)] ∧ i = .assign dest v) ∨ i = .phi dest s.ret (s.returns f callee)) := by
  unfold Splice.result Splice.bring at hi
  split at hi
  · rename_i dest hd
    refine ⟨dest, hd, ?_⟩
    rw [List.mem_singleton.mp hi]
    unfold resultOf
    split
    · exact .inl ⟨_, _, ‹_›, rfl⟩
    · exact .inr rfl
  · exact absurd hi List.not_mem_nil

/-- What brings the result sets no other register. -/
theorem dest?_result (hi : i ∈ s.result f callee) : i.dest? = s.dest := by
  obtain ⟨dest, hd, ⟨v, p, -, rfl⟩ | rfl⟩ := result_cases hi <;> exact hd.symm

theorem dests_result : (s.result f callee).filterMap (·.dest?) = s.dest.toList := by
  unfold Splice.result Splice.bring
  cases s.dest with
  | none => rfl
  | some dest =>
    simp only [Option.toList_some]
    unfold resultOf
    split <;> rfl

/-- The registers of the slots of the copy. -/
theorem dests_slots : (s.slots f callee).filterMap (·.dest?) =
    ((callee.instructions.filter (·.isAlloca)).filterMap (·.dest?)).map (f.registers.size + ·) := by
  rw [Splice.slots, List.filterMap_map, List.map_filterMap]
  exact List.filterMap_congr fun i _ => dest?_transplanted _ i

theorem nodup_dests_slots (hc : callee.Shaped) : ((s.slots f callee).filterMap (·.dest?)).Nodup := by
  rw [dests_slots]
  exact (hc.once.sublist (List.filter_sublist.filterMap _)).map fun a b hab => Nat.add_left_cancel hab

section

variable (h : f.Spliced callee s f') (hs : f.CallAt callee s b) (hf : f.Shaped) (hc : callee.Shaped)

include hs hf in
/-- The registers that are set around the call are different. -/
theorem CallAt.dests : (s.before.filterMap (·.dest?) ++ (s.dest.toList ++ s.after.filterMap (·.dest?))).Nodup := by
  have := hf.once_block (List.mem_of_getElem? hs.block)
  rw [hs.instructions, List.filterMap_append] at this
  cases hd : s.dest with
  | none | some dest => simpa [hd, Instruction.dest?] using this

variable {x p : BlockId} {i : Instruction} {r : Register} {v : Value}

include hs in
/-- What is left of a block of the caller was there. -/
theorem CallAt.mem_of_own {X : Block} (hX : f.block? x = some X) (hi : i ∈ (if x = s.block then s.before else X.instructions)) :
    i ∈ X.instructions := by
  split at hi
  · rename_i hx
    subst hx
    cases hX.symm.trans hs.block
    rw [hs.instructions]
    exact List.mem_append_left _ hi
  · exact hi

include hs hf in
/-- An instruction of the caller sets a register of the caller. -/
theorem CallAt.dest_lt {X : Block} (hX : f.block? x = some X) (hi : i ∈ (if x = s.block then s.before else X.instructions))
    (hr : i.dest? = some r) : i ∈ X.instructions ∧ r < f.registers.size := by
  have hmem := hs.mem_of_own hX hi
  exact ⟨hmem, hf.sized i (mem_of_block? hX hmem) r hr⟩

include hs hf in
/-- What comes behind the call, and its result, set registers of the caller. -/
theorem CallAt.dest_lt_behind (hi : i ∈ s.result f callee ∨ i ∈ s.after) (hr : i.dest? = some r) : r < f.registers.size := by
  have hmem : ∀ i ∈ b.instructions, i ∈ f.instructions :=
    fun i hi => mem_of_block? hs.block hi
  rcases hi with hi | hi
  · refine hf.sized (.call s.dest callee.name s.args s.ret) (hmem _ (by simp [hs.instructions])) r ?_
    exact (dest?_result hi).symm.trans hr
  · exact hf.sized i (hmem i (by simp [hs.instructions, hi])) r hr

include h hs hf hc in
/-- Every block of the function after inlining sets a register once. -/
theorem Spliced.once_block {X' : Block} (hX' : f'.block? x = some X') : (X'.instructions.filterMap (·.dest?)).Nodup := by
  rcases h.block?_cases hX' with ⟨X, hX, rfl⟩ | ⟨rfl, hi, -⟩ | ⟨j, C, rfl, hC, hi, -⟩
  · have hown : ((s.own f x X).filterMap (·.dest?)).Nodup := by
      have hdest : (s.own f x X).filterMap (·.dest?) =
          (if x = s.block then s.before else X.instructions).filterMap (·.dest?) := by
        rw [Splice.own, List.filterMap_map]
        exact List.filterMap_congr fun i _ => i.dest?_mapIncoming _
      rw [hdest]
      split
      · exact (List.nodup_append.mp (hs.dests hf)).1
      · exact hf.once_block (List.mem_of_getElem? hX)
    have hperm : ((s.own f x X).takeWhile (·.isAlloca) ++ (if x = f.entry then s.slots f callee else []) ++
        (s.own f x X).dropWhile (·.isAlloca)).Perm
        (s.own f x X ++ if x = f.entry then s.slots f callee else []) := by
      conv_rhs => rw [← List.takeWhile_append_dropWhile (p := (·.isAlloca)) (l := s.own f x X)]
      rw [List.append_assoc, List.append_assoc]
      exact List.perm_append_comm.append_left _
    refine (hperm.filterMap _).nodup_iff.mpr ?_
    rw [List.filterMap_append]
    split
    · refine List.nodup_append.mpr ⟨hown, nodup_dests_slots hc, fun r hr q hq hrq => ?_⟩
      obtain ⟨i, hi, hir⟩ := List.mem_filterMap.mp hr
      obtain ⟨i, hi', rfl⟩ := List.mem_map.mp hi
      rw [Instruction.dest?_mapIncoming] at hir
      have hlt := (hs.dest_lt hf hX hi' hir).2
      obtain ⟨j, hj, hjq⟩ := List.mem_filterMap.mp hq
      obtain ⟨j, -, rfl⟩ := List.mem_map.mp hj
      rw [dest?_transplanted] at hjq
      obtain ⟨q', -, rfl⟩ := Option.map_eq_some_iff.mp hjq
      have : f.registers.size + q' = r := hrq.symm
      lia
    · simpa using hown
  · rw [hi, List.filterMap_append, dests_result]
    exact (List.nodup_append.mp (hs.dests hf)).2.1
  · have hdest : X'.instructions.filterMap (·.dest?) =
        ((C.instructions.filter fun i => !i.isAlloca).filterMap (·.dest?)).map (f.registers.size + ·) := by
      rw [hi, List.filterMap_map, List.map_filterMap]
      exact List.filterMap_congr fun i _ => dest?_transplanted _ i
    rw [hdest]
    exact ((hc.once_block (List.mem_of_getElem? hC)).sublist (List.filter_sublist.filterMap _)).map
      fun a b hab => Nat.add_left_cancel hab

include h hs hf in
/-- Where a register is set after inlining: one of the caller where it was, or behind the call; one of the copy at the start if it is
a slot, or else in the copy. -/
theorem Spliced.home {X' : Block} (hX' : f'.block? x = some X') {i' : Instruction} (hi' : i' ∈ X'.instructions) (hr : i'.dest? = some r) :
    (r < f.registers.size ∧ ∃ y Y i, f.block? y = some Y ∧ i ∈ Y.instructions ∧ i.dest? = some r ∧
        x = if y = s.block ∧ r ∉ s.before.filterMap (·.dest?) then f.blocks.length else y) ∨
      ∃ q y C i, r = f.registers.size + q ∧ callee.block? y = some C ∧ i ∈ C.instructions ∧ i.dest? = some q ∧
        x = if i.isAlloca = true then f.entry else f.blocks.length + 1 + y := by
  have hdests := List.nodup_append.mp (hs.dests hf)
  rcases h.origin hX' hi' with ⟨X, i, hX, hi, rfl⟩ | ⟨rfl, q, t, hq, rfl⟩ | ⟨rfl, hi⟩ | ⟨rfl, hi⟩ | ⟨j, C, i, rfl, hC, hi, ha, rfl⟩
  · rw [Instruction.dest?_mapIncoming] at hr
    obtain ⟨hmem, hlt⟩ := hs.dest_lt hf hX hi hr
    refine .inl ⟨hlt, x, X, i, hX, hmem, hr, ?_⟩
    rw [if_neg]
    rintro ⟨hx, hno⟩
    rw [if_pos hx] at hi
    exact hno (List.mem_filterMap.mpr ⟨i, hi, hr⟩)
  · cases hr
    obtain ⟨y, C, hy, hq⟩ := mem_instructions.mp hq
    exact .inr ⟨q, y, C, _, rfl, hy, hq, rfl, rfl⟩
  · have hcall : .call s.dest callee.name s.args s.ret ∈ b.instructions := by simp [hs.instructions]
    have hd : s.dest = some r := (dest?_result hi).symm.trans hr
    refine .inl ⟨hs.dest_lt_behind hf (.inl hi) hr, s.block, b, _, hs.block, hcall, hd, ?_⟩
    rw [if_pos ⟨rfl, fun hbefore => hdests.2.2 r hbefore r (List.mem_append_left _ (by simp [hd])) rfl⟩]
  · have hmem : i' ∈ b.instructions := by simp [hs.instructions, hi]
    refine .inl ⟨hs.dest_lt_behind hf (.inr hi) hr, s.block, b, _, hs.block, hmem, hr, ?_⟩
    refine (if_pos ⟨rfl, fun hbefore => ?_⟩).symm
    exact hdests.2.2 r hbefore r (List.mem_append_right _ (List.mem_filterMap.mpr ⟨i', hi, hr⟩)) rfl
  · rw [dest?_transplanted] at hr
    obtain ⟨q, hq, rfl⟩ := Option.map_eq_some_iff.mp hr
    exact .inr ⟨q, j, C, i, rfl, hC, hi, hq, by simp [ha]⟩

include h hs hf hc in
/-- A register is set once after inlining. -/
theorem Spliced.once : (f'.instructions.filterMap (·.dest?)).Nodup := by
  refine once_of_blocks (fun X' hX' => ?_) ?_
  · obtain ⟨x, hx⟩ := exists_block? hX'
    exact h.once_block hs hf hc hx
  · intro x x' X X' i i' r hX hX' hi hi' hr hr'
    rcases h.home hs hf hX hi hr with ⟨hlt, y, Y, j, hY, hj, hjr, rfl⟩ | ⟨q, y, Y, j, rfl, hY, hj, hjr, rfl⟩
    · rcases h.home hs hf hX' hi' hr' with ⟨-, y', Y', j', hY', hj', hjr', rfl⟩ | ⟨q, _, _, _, rfl, -⟩
      · rw [(hf.unique hY hY' hj hj' hjr hjr').1]
      · lia
    · rcases h.home hs hf hX' hi' hr' with ⟨hlt, -⟩ | ⟨q', y', Y', j', hq, hY', hj', hjr', rfl⟩
      · lia
      · obtain rfl : q = q' := Nat.add_left_cancel hq
        obtain ⟨rfl, rfl⟩ := hc.unique hY hY' hj hj' hjr hjr'
        rfl

include h hs in
/-- What is set in the caller before inlining is set after it. -/
theorem Spliced.image_caller (hi : i ∈ f.instructions) (hr : i.dest? = some r) : ∃ i' ∈ f'.instructions, i'.dest? = some r := by
  obtain ⟨x, X, hx, hi⟩ := mem_instructions.mp hi
  have hown : i ∈ (if x = s.block then s.before else X.instructions) → ∃ i' ∈ f'.instructions, i'.dest? = some r := by
    intro hi
    refine ⟨i.mapIncoming (s.edges f x), ?_, (i.dest?_mapIncoming _).trans hr⟩
    exact mem_of_block? (h.own x X hx) (mem_ownBlock.mpr (.inl (List.mem_map.mpr ⟨i, hi, rfl⟩)))
  by_cases hxs : x = s.block
  · obtain ⟨label, hnext⟩ := h.next
    have hbehind : ∀ i' ∈ s.result f callee ++ s.after, i' ∈ f'.instructions :=
      fun i' hi' => mem_of_block? hnext hi'
    subst hxs
    cases (show f.block? s.block = some X from hx).symm.trans hs.block
    rw [hs.instructions] at hi
    rcases List.mem_append.mp hi with hi | hi
    · exact hown (by rwa [if_pos rfl])
    · rcases List.mem_cons.mp hi with rfl | hi
      · obtain ⟨i', hi', hg⟩ := gives_result (f := f) (k := .set r) hr
        exact ⟨i', hbehind i' (List.mem_append_left _ hi'), hg⟩
      · exact ⟨i, hbehind i (List.mem_append_right _ hi), hr⟩
  · exact hown (by rwa [if_neg hxs])

include h hf in
/-- What is set in the callee is set in the copy. -/
theorem Spliced.image_callee (hi : i ∈ callee.instructions) (hr : i.dest? = some r) :
    ∃ i' ∈ f'.instructions, i'.dest? = some (f.registers.size + r) := by
  have hd : ((s.transplant f callee).instruction i).dest? = some (f.registers.size + r) := by
    rw [dest?_transplanted, hr]
    rfl
  cases ha : i.isAlloca with
  | true =>
    have hE := h.own f.entry _ (List.getElem?_eq_getElem hf.entry_lt)
    refine ⟨_, mem_of_block? hE (mem_ownBlock.mpr (.inr ⟨rfl, ?_⟩)), hd⟩
    exact List.mem_map.mpr ⟨i, List.mem_filter.mpr ⟨hi, ha⟩, rfl⟩
  | false =>
    obtain ⟨j, C, hj, hi⟩ := mem_instructions.mp hi
    obtain ⟨label, hcopy⟩ := h.copied j C hj
    refine ⟨_, mem_of_block? hcopy ?_, hd⟩
    exact List.mem_map.mpr ⟨i, List.mem_filter.mpr ⟨hi, by simp [ha]⟩, rfl⟩

/-- The values that the copy returns, and from where. -/
theorem mem_returns : (v, p) ∈ s.returns f callee ↔ ∃ j C w, callee.block? j = some C ∧
    C.terminator = some (.ret (some w)) ∧ v = (s.transplant f callee).value w ∧ p = f.blocks.length + 1 + j := by
  unfold Splice.returns
  rw [List.mem_filterMap]
  constructor
  · rintro ⟨⟨C, j⟩, hC, hr⟩
    simp only [Transplant.returned?] at hr
    split at hr
    · rename_i w hw
      cases hr
      exact ⟨j, C, w, List.mem_zipIdx_iff_getElem?.mp hC, hw, rfl, rfl⟩
    · cases hr
  · rintro ⟨j, C, w, hC, hw, rfl, rfl⟩
    refine ⟨(C, j), List.mem_zipIdx_iff_getElem?.mpr hC, ?_⟩
    simp only [Transplant.returned?, hw]
    rfl

/-- Every block of the copy returns once. -/
theorem nodup_returns : ((s.returns f callee).map (·.2)).Nodup := by
  have hsub : ∀ l : List (Block × Nat), ((l.filterMap fun p => (s.transplant f callee).returned? p.2 p.1).map (·.2)).Sublist
      ((l.map (·.2)).map (f.blocks.length + 1 + ·)) := by
    intro l
    induction l with
    | nil => exact .slnil
    | cons e l ih =>
      obtain ⟨C, j⟩ := e
      cases hr : (s.transplant f callee).returned? j C with
      | none => simpa [hr] using ih.cons _
      | some r =>
        have hj : r.2 = f.blocks.length + 1 + j := by
          simp only [Transplant.returned?] at hr
          split at hr
          · cases hr
            rfl
          · cases hr
        simpa [hr, hj] using ih
  refine List.Nodup.sublist (hsub callee.blocks.zipIdx) ?_
  rw [List.zipIdx_map_snd]
  exact (List.nodup_range' _).map fun a b hab => Nat.add_left_cancel hab

/-- The result is one of the values that the copy returns. -/
theorem operands_result (hi : i ∈ s.result f callee) (hv : v ∈ i.operands) : ∃ p, (v, p) ∈ s.returns f callee := by
  obtain ⟨dest, -, ⟨w, p, hw, rfl⟩ | rfl⟩ := result_cases hi
  · rw [hw, List.mem_singleton.mp hv]
    exact ⟨p, List.mem_singleton.mpr rfl⟩
  · obtain ⟨e, he, rfl⟩ := List.mem_map.mp hv
    exact ⟨e.2, he⟩

theorem operands_edges (i : Instruction) (x : BlockId) : (i.mapIncoming (s.edges f x)).operands = i.operands := by
  unfold Splice.edges
  split
  · cases i <;> simp [Instruction.mapIncoming, Instruction.operands]
  · rw [Instruction.mapIncoming_id]

include hs in
/-- An argument of the call is an operand of the caller. -/
theorem CallAt.mem_operands_arg (hv : v ∈ s.args) : v ∈ f.operands :=
  mem_operands hs.mem_call hv

include hs in
/-- A register that stands for an operand of the callee is one of the copy, or an operand of the caller. -/
theorem CallAt.register_cases (hv : v ∈ callee.operands) (hr : (s.transplant f callee).value v = .register r) :
    .register r ∈ f.operands ∨ ∃ q, .register q ∈ callee.operands ∧ r = f.registers.size + q := by
  rcases value_eq_register hr with ⟨q, rfl, -, rfl⟩ | ⟨i, -, hi⟩
  · exact .inr ⟨q, hv, rfl⟩
  · exact .inl (hs.mem_operands_arg (List.mem_of_getElem? hi))

include h hs in
/-- The registers that are used after inlining. -/
theorem Spliced.operands (hr : .register r ∈ f'.operands) :
    .register r ∈ f.operands ∨ ∃ q, .register q ∈ callee.operands ∧ r = f.registers.size + q := by
  have hb : ∀ i ∈ b.instructions, ∀ v ∈ i.operands, v ∈ f.operands := fun i hi v hv =>
    mem_operands (mem_of_block? hs.block hi) hv
  rcases operands_cases hr with ⟨x, X', i', hx, hi', hr⟩ | ⟨x, X', t, hx, ht', hr⟩
  · rcases h.origin hx hi' with ⟨X, i, hX, hi, rfl⟩ | ⟨-, q, t, -, rfl⟩ | ⟨-, hi⟩ | ⟨-, hi⟩ | ⟨j, C, i, -, hC, hi, -, rfl⟩
    · rw [operands_edges] at hr
      split at hi
      · exact .inl (hb i (by simp [hs.instructions, hi]) _ hr)
      · exact .inl (mem_operands (mem_of_block? hX hi) hr)
    · exact absurd hr List.not_mem_nil
    · obtain ⟨p, hp⟩ := operands_result hi hr
      obtain ⟨j, C, w, hC, hw, hv, -⟩ := mem_returns.mp hp
      exact hs.register_cases (mem_operands_end hC hw (by simp [Terminator.operands])) hv.symm
    · exact .inl (hb i' (by simp [hs.instructions, hi]) _ hr)
    · rw [operands_transplanted] at hr
      obtain ⟨v, hv, hr⟩ := List.mem_map.mp hr
      exact hs.register_cases (mem_operands (mem_of_block? hC hi) hv) hr
  · rcases h.block?_cases hx with ⟨X, hX, rfl⟩ | ⟨-, -, ht⟩ | ⟨j, C, -, hC, -, ht⟩
    · simp only [Splice.ownBlock] at ht'
      split_ifs at ht'
      · cases ht'
        exact absurd hr List.not_mem_nil
      · exact .inl (mem_operands_end hX ht' hr)
    · exact .inl (mem_operands_end hs.block (hs.terminator.trans (ht.symm.trans ht')) hr)
    · cases ht.symm.trans ht'
      obtain ⟨t, hCt, v, hv, hr⟩ := operands_transplanted_terminator hr
      exact hs.register_cases (mem_operands_end hC hCt hv) hr

include h hs hf

/-- Which blocks precede a block of the caller after inlining. -/
theorem Spliced.precedes_own (hx : x < f.blocks.length) :
    f'.Precedes p x ↔ (p = f.blocks.length ∧ x ∈ s.successors) ∨ p ≠ s.block ∧ f.Precedes p x := by
  constructor
  · rintro ⟨P', hP', hs'⟩
    rcases h.edge_cases hs hf hP' hs' with ⟨P, hP, -, ⟨-, rfl⟩ | ⟨hp, hy, -⟩⟩ | ⟨rfl, -, hy, -⟩ | ⟨j, C, -, -, -, ⟨rfl, -⟩ | ⟨j', -, rfl⟩⟩
    · lia
    · exact .inr ⟨hp, P, hP, hy⟩
    · exact .inl ⟨rfl, hs.successors ▸ hy⟩
    · lia
    · lia
  · rintro (⟨rfl, hs'⟩ | ⟨hp, P, hP, hs'⟩)
    · obtain ⟨label, hnext⟩ := h.next
      exact ⟨_, hnext, by simpa [Splice.successors, Block.successors] using hs'⟩
    · exact ⟨_, h.own p P hP, by rwa [successors_ownBlock, if_neg hp]⟩

/-- Which blocks precede the block behind the call: the copies of those that return. -/
theorem Spliced.precedes_next : f'.Precedes p f.blocks.length ↔
    ∃ j C v, p = f.blocks.length + 1 + j ∧ callee.block? j = some C ∧ C.terminator = some (.ret v) := by
  constructor
  · rintro ⟨P', hP', hs'⟩
    rcases h.edge_cases hs hf hP' hs' with ⟨-, -, -, ⟨-, hy⟩ | ⟨-, -, hlt⟩⟩ | ⟨-, -, -, hlt⟩ | ⟨j, C, rfl, hC, -, ⟨-, v, hv⟩ | ⟨j', -, hy⟩⟩
    · lia
    · lia
    · lia
    · exact ⟨j, C, v, rfl, hC, hv⟩
    · lia
  · rintro ⟨j, C, v, rfl, hC, hv⟩
    obtain ⟨label, hcopy⟩ := h.copied j C hC
    refine ⟨_, hcopy, ?_⟩
    simp only [Block.successors, hv]
    exact List.mem_singleton.mpr rfl

/-- Which blocks precede a block of the copy that is not its first. -/
theorem Spliced.precedes_copy {j : BlockId} (hj : j ≠ callee.entry) : f'.Precedes p (f.blocks.length + 1 + j) ↔
    ∃ k, p = f.blocks.length + 1 + k ∧ callee.Precedes k j := by
  constructor
  · rintro ⟨P', hP', hs'⟩
    rcases h.edge_cases hs hf hP' hs' with ⟨-, -, -, ⟨-, hy⟩ | ⟨-, -, hlt⟩⟩ | ⟨-, -, -, hlt⟩ | ⟨k, C, rfl, hC, -, ⟨hy, -⟩ | ⟨j', hj', hy⟩⟩
    · exact absurd (Nat.add_left_cancel hy) hj
    · lia
    · lia
    · lia
    · exact ⟨k, rfl, C, hC, Nat.add_left_cancel hy ▸ hj'⟩
  · rintro ⟨k, rfl, C, hC, hs'⟩
    obtain ⟨label, hcopy⟩ := h.copied k C hC
    refine ⟨_, hcopy, ?_⟩
    cases hterm : C.terminator with
    | none => simp [Block.successors, hterm] at hs'
    | some t =>
      simp only [Block.successors, hterm] at hs' ⊢
      cases t with
      | ret v | unreachable => exact absurd hs' List.not_mem_nil
      | jump target =>
        rw [← List.mem_singleton.mp hs']
        exact List.mem_singleton.mpr rfl
      | branch cond yes no =>
        rcases List.mem_pair.mp hs' with rfl | rfl
        · exact List.mem_pair.mpr (.inl rfl)
        · exact List.mem_pair.mpr (.inr rfl)

end

end Function

end Ember.IR
