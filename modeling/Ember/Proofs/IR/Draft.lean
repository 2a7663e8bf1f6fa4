import Ember.IR.Builder
import Ember.Proofs.IR.Block
import Ember.Proofs.IR.WellFormed
import Mathlib.Data.List.TakeWhile

/-!
# Functions under construction

A function is built block by block, and edges lead back to blocks that were made before. So that what is known about a place does not
depend on edges still to come, a `Ledger` fixes for every block which slots are filled whenever it is entered; an edge may be added
only if it keeps that promise. Every step of the builder keeps a `Draft`, and a draft whose blocks all end is well formed.
-/

namespace Ember.IR

/-- What is promised about a function under construction: the grades of its registers, and the slots that are filled when a block is
entered. -/
structure Ledger where
  register : Register → Grade
  filled : BlockId → Register → Prop

namespace Ledger

/-- The grades of a function under construction. -/
def grading (k : Ledger) (I : Interface) (params : List Grade) : Grading where
  interface := I
  params := params
  register := k.register

/-- The slot is filled at the place of block `b` behind the instructions `before`. -/
def FilledAt (k : Ledger) (b : BlockId) (before : List Instruction) (r : Register) : Prop :=
  k.filled b r ∨ ∃ j ∈ before, j.Gives (.filled r)

/-- Grades a new register. -/
def grade (k : Ledger) (r : Register) (g : Grade) : Ledger :=
  { k with register := fun q => if q = r then g else k.register q }

/-- Promises what is filled when a block is entered. -/
def promise (k : Ledger) (b : BlockId) (filled : Register → Prop) : Ledger :=
  { k with filled := fun x => if x = b then filled else k.filled x }

variable {k : Ledger} {b : BlockId} {before : List Instruction} {r : Register}

theorem filled_promise_self (k : Ledger) (b : BlockId) (filled : Register → Prop) : (k.promise b filled).filled b = filled :=
  if_pos rfl

theorem filled_promise_of_ne (k : Ledger) {b x : BlockId} (filled : Register → Prop) (h : x ≠ b) :
    (k.promise b filled).filled x = k.filled x :=
  if_neg h

/-- What is filled at a place is filled further down in the block. -/
theorem FilledAt.append (h : k.FilledAt b before r) (more : List Instruction) : k.FilledAt b (before ++ more) r :=
  h.imp_right fun ⟨j, hj, hg⟩ => ⟨j, List.mem_append_left _ hj, hg⟩

end Ledger

/-- The register of a value, if it is one, is a slot or was set before. -/
def Function.Available (f : Function) (before : List Instruction) (v : Value) : Prop :=
  ∀ r, v = .register r → f.IsSlot r ∨ ∃ j ∈ before, j.dest? = some r

/-- A block of a function under construction. -/
structure Block.Drafted (I : Interface) (params : List Grade) (k : Ledger) (f : Function) (b : BlockId) (B : Block) : Prop where
  numbered : B.id = b
  targets : ∀ s ∈ B.successors, s < f.blocks.length ∧ s ≠ 0
  sized : ∀ i ∈ B.instructions, ∀ r, i.dest? = some r → r < f.registers.size
  no_phi : ∀ i ∈ B.instructions, i.isPhi = false
  slots : ∃ slots rest, B.instructions = slots ++ rest ∧ (∀ i ∈ slots, i.isAlloca = true) ∧
    (∀ i ∈ rest, i.isAlloca = false) ∧ (b ≠ 0 → slots = [])
  operand : ∀ before i after, B.instructions = before ++ i :: after → ∀ v ∈ i.operands, f.Available before v
  final : ∀ t, B.terminator = some t → ∀ v ∈ t.operands, f.Available B.instructions v
  reading : ∀ before i after, B.instructions = before ++ i :: after →
    ∀ r, .register r ∈ i.reading → f.IsSlot r → k.FilledAt b before r
  flow : ∀ s ∈ B.successors, ∀ r, k.filled s r → k.FilledAt b B.instructions r
  typed : ∀ i ∈ B.instructions, (k.grading I params).Types i
  typed_end : ∀ t, B.terminator = some t → (k.grading I params).TypesEnd f.ret t

/-- A function under construction. -/
structure Function.Draft (I : Interface) (params : List Grade) (k : Ledger) (f : Function) : Prop where
  entry : f.entry = 0
  nonempty : 0 < f.blocks.length
  labels : f.labels.Nodup
  once : (f.instructions.filterMap (·.dest?)).Nodup
  start : ∀ r, ¬k.filled 0 r
  blocks : ∀ b B, f.block? b = some B → B.Drafted I params k f b

/-- A function under construction is continued: it has more blocks, registers and slots, and what there was has kept its grade. -/
structure Ledger.Continues (k : Ledger) (f : Function) (k' : Ledger) (f' : Function) : Prop where
  name : f'.name = f.name
  params : f'.params = f.params
  ret : f'.ret = f.ret
  length : f.blocks.length ≤ f'.blocks.length
  size : f.registers.size ≤ f'.registers.size
  slot : ∀ r, f.IsSlot r → f'.IsSlot r
  slot_old : ∀ r, r < f.registers.size → f'.IsSlot r → f.IsSlot r
  register : ∀ r, r < f.registers.size → k'.register r = k.register r

variable {I : Interface} {params : List Grade} {k k' : Ledger} {f f' : Function}

theorem Function.Available.mono {before : List Instruction} {v : Value} (h : f.Available before v)
    (hs : ∀ r, f.IsSlot r → f'.IsSlot r) : f'.Available before v :=
  fun r hr => (h r hr).imp_left (hs r)

theorem Function.Available.append {before : List Instruction} {v : Value} (h : f.Available before v) (more : List Instruction) :
    f.Available (before ++ more) v :=
  fun r hr => (h r hr).imp_right fun ⟨j, hj, hd⟩ => ⟨j, List.mem_append_left _ hj, hd⟩

namespace Function.Draft

variable (h : f.Draft I params k)
include h

variable {r : Register}

theorem sized {i : Instruction} (hi : i ∈ f.instructions) (hr : i.dest? = some r) : r < f.registers.size := by
  obtain ⟨b, B, hB, hi⟩ := mem_instructions.mp hi
  exact (h.blocks b B hB).sized i hi r hr

theorem entry_block : ∃ E, f.block? 0 = some E :=
  ⟨_, List.getElem?_eq_getElem h.nonempty⟩

theorem slot_lt (hr : f.IsSlot r) : r < f.registers.size :=
  let ⟨_, ht⟩ := hr
  h.sized ht rfl

/-- A register that is available has a type. -/
theorem lt_of_available {b : BlockId} {B : Block} (hB : f.block? b = some B) {before : List Instruction}
    (hsub : ∀ j ∈ before, j ∈ B.instructions) (ha : f.Available before (.register r)) : r < f.registers.size := by
  rcases ha r rfl with hs | ⟨j, hj, hr⟩
  · exact h.slot_lt hs
  · exact (h.blocks b B hB).sized j (hsub j hj) r hr

end Function.Draft

namespace Ledger.Continues

theorem refl (k : Ledger) (f : Function) : k.Continues f k f where
  name := rfl
  params := rfl
  ret := rfl
  length := Nat.le_refl _
  size := Nat.le_refl _
  slot := fun _ hr => hr
  slot_old := fun _ _ hr => hr
  register := fun _ _ => rfl

theorem trans {k'' : Ledger} {f'' : Function} (h : k.Continues f k' f') (h' : k'.Continues f' k'' f'') : k.Continues f k'' f'' where
  name := h'.name.trans h.name
  params := h'.params.trans h.params
  ret := h'.ret.trans h.ret
  length := h.length.trans h'.length
  size := h.size.trans h'.size
  slot := fun r hr => h'.slot r (h.slot r hr)
  slot_old := fun r hlt hr => h.slot_old r hlt (h'.slot_old r (Nat.lt_of_lt_of_le hlt h.size) hr)
  register := fun r hlt => (h'.register r (Nat.lt_of_lt_of_le hlt h.size)).trans (h.register r hlt)

/-- Values keep their grades. -/
theorem has (h : k.Continues f k' f') {v : Value} {g : Grade} (hlt : ∀ r, v = .register r → r < f.registers.size)
    (hv : (k.grading I params).Has v g) : (k'.grading I params).Has v g := by
  cases v with
  | register r => exact (h.register r (hlt r rfl)).trans hv
  | _ => exact hv

end Ledger.Continues

/-- A block keeps its standing when the function is continued elsewhere, provided the promises about it and its targets stand. -/
theorem Block.Drafted.continued {b : BlockId} {B : Block} (h : f.Draft I params k) (hB : f.block? b = some B)
    (hc : k.Continues f k' f') (hb : ∀ r, k.filled b r → k'.filled b r)
    (hs : ∀ s ∈ B.successors, ∀ r, k'.filled s r → k.filled s r) : B.Drafted I params k' f' b := by
  have hd := h.blocks b B hB
  have hfilled : ∀ before r, k.FilledAt b before r → k'.FilledAt b before r := fun _ r hf => hf.imp_left (hb r)
  have hat : ∀ before i after, B.instructions = before ++ i :: after → ∀ j ∈ before, j ∈ B.instructions :=
    fun before i after hl j hj => hl ▸ List.mem_append_left _ hj
  have hlt : ∀ i ∈ B.instructions, ∀ v ∈ i.operands, ∀ r, v = .register r → r < f.registers.size := by
    rintro i hi v hv r rfl
    obtain ⟨before, after, hl⟩ := List.append_of_mem hi
    exact h.lt_of_available hB (hat before i after hl) (hd.operand before i after hl _ hv)
  refine ⟨hd.numbered, fun s hs => ⟨Nat.lt_of_lt_of_le (hd.targets s hs).1 hc.length, (hd.targets s hs).2⟩,
    fun i hi r hr => Nat.lt_of_lt_of_le (hd.sized i hi r hr) hc.size, hd.no_phi, hd.slots,
    fun before i after hl v hv => (hd.operand before i after hl v hv).mono hc.slot,
    fun t ht v hv => (hd.final t ht v hv).mono hc.slot, fun before i after hl r hr hslot => ?_,
    fun s hs' r hr => hfilled _ r (hd.flow s hs' r (hs s hs' r hr)), fun i hi => ?_, fun t ht => ?_⟩
  · have hmem : .register r ∈ i.operands := by
      cases i <;> simp_all [Instruction.reading, Instruction.operands]
    exact hfilled _ r (hd.reading before i after hl r hr
      (hc.slot_old r (hlt i (hl ▸ by simp) _ hmem r rfl) hslot))
  · have : (k'.grading I params).Types (i.mapOperands id) := (hd.typed i hi).mapOperands rfl (fun _ _ _ hsig => hsig)
      (fun _ => rfl) (fun v hv g hg => hc.has (hlt i hi v hv) hg) (fun r hr => hc.register r (hd.sized i hi r hr))
    rwa [Instruction.mapOperands_id] at this
  · have : (k'.grading I params).TypesEnd f.ret (t.mapOperands id) := (hd.typed_end t ht).mapOperands fun v hv g hg =>
      hc.has (fun r hr => h.lt_of_available hB (fun _ hj => hj) (hr ▸ hd.final t ht v hv)) hg
    rw [Terminator.mapOperands_id] at this
    exact hc.ret ▸ this

/-- A block without content is in order. -/
theorem Block.Drafted.empty (b : BlockId) (label : String) : Block.Drafted I params k f b { id := b, label } where
  numbered := rfl
  targets := by simp [Block.successors]
  sized := by simp
  no_phi := by simp
  slots := ⟨[], [], by simp⟩
  operand := by simp
  final := by simp
  reading := by simp
  flow := by simp [Block.successors]
  typed := by simp
  typed_end := by simp

namespace Function

/-- One more instruction keeps every register set once, if what it sets is new. -/
theorem once_of_added {i : Instruction} (h : (f.instructions.filterMap (·.dest?)).Nodup) (hp : f'.instructions.Perm (i :: f.instructions))
    (hnew : ∀ r, i.dest? = some r → ∀ j ∈ f.instructions, j.dest? ≠ some r) : (f'.instructions.filterMap (·.dest?)).Nodup := by
  rw [(hp.filterMap _).nodup_iff, List.filterMap_cons]
  split
  · exact h
  · refine List.nodup_cons.mpr ⟨fun hr => ?_, h⟩
    obtain ⟨j, hj, hjr⟩ := List.mem_filterMap.mp hr
    exact hnew _ ‹_› j hj hjr

namespace Draft

/-- A function is still a draft when blocks that were not touched are the same and the others are in order. -/
theorem of_continues (h : f.Draft I params k) (hc : k.Continues f k' f') (hentry : f'.entry = f.entry) (hlabels : f'.labels.Nodup)
    (honce : (f'.instructions.filterMap (·.dest?)).Nodup) (hstart : ∀ r, ¬k'.filled 0 r)
    (hblocks : ∀ b B, f'.block? b = some B → B.Drafted I params k' f' b ∨ (f.block? b = some B ∧
      (∀ r, k.filled b r → k'.filled b r) ∧ ∀ s ∈ B.successors, ∀ r, k'.filled s r → k.filled s r)) : f'.Draft I params k' where
  entry := hentry.trans h.entry
  nonempty := Nat.lt_of_lt_of_le h.nonempty hc.length
  labels := hlabels
  once := honce
  start := hstart
  blocks := fun b B hB => (hblocks b B hB).elim id fun ⟨hB₀, hb, hs⟩ => .continued h hB₀ hc hb hs

/-- A function is still a draft when one block is changed, its promises stand, and it is in order if it was before. -/
theorem of_changed {c : BlockId} {C C' : Block} (h : f.Draft I params k) (hC : f.block? c = some C) (hc : k.Continues f k' f')
    (hfilled : k'.filled = k.filled) (hentry : f'.entry = f.entry) (hlabels : f'.labels = f.labels)
    (honce : (f'.instructions.filterMap (·.dest?)).Nodup) (hblocks : ∀ b, f'.block? b = if b = c then some C' else f.block? b)
    (hnew : C.Drafted I params k' f' c → C'.Drafted I params k' f' c) : f'.Draft I params k' := by
  refine h.of_continues hc hentry (hlabels ▸ h.labels) honce (hfilled ▸ h.start) fun b B hB => ?_
  rw [hblocks] at hB
  split at hB
  · rename_i hb
    subst hb
    cases hB
    exact .inl (hnew (.continued h hC hc (fun _ => hfilled ▸ id) fun _ _ _ => hfilled ▸ id))
  · exact .inr ⟨hB, fun _ => hfilled ▸ id, fun _ _ _ => hfilled ▸ id⟩

end Draft

/-! ## A new register -/

theorem continues_addRegister (k : Ledger) (f : Function) (type : Ty) (g : Grade) :
    k.Continues f (k.grade f.registers.size g) (f.addRegister type).2 :=
  { Ledger.Continues.refl k f with size := by simp [addRegister], register := fun _ hr => if_neg (Nat.ne_of_lt hr) }

theorem Draft.addRegister (h : f.Draft I params k) (type : Ty) (g : Grade) :
    (f.addRegister type).2.Draft I params (k.grade f.registers.size g) :=
  h.of_continues (continues_addRegister k f type g) rfl h.labels h.once h.start fun _ _ hB =>
    .inr ⟨hB, fun _ hr => hr, fun _ _ _ hr => hr⟩

/-! ## A new instruction -/

/-- Appends an instruction to a block. -/
def emit (f : Function) (c : BlockId) (i : Instruction) : Function :=
  f.modifyBlock c fun b => { b with instructions := b.instructions ++ [i] }

section emit

variable {c : BlockId} {C : Block} {i : Instruction}

variable (hC : f.block? c = some C)
include hC

theorem block?_emit (b : BlockId) :
    (f.emit c i).block? b = if b = c then some { C with instructions := C.instructions ++ [i] } else f.block? b :=
  block?_modifyBlock_at hC _ b

theorem instructions_emit_perm : (f.emit c i).instructions.Perm (i :: f.instructions) :=
  instructions_modifyBlock_perm [i] hC List.perm_append_comm

theorem mem_instructions_emit {j : Instruction} : j ∈ (f.emit c i).instructions ↔ j ∈ f.instructions ∨ j = i := by
  rw [(instructions_emit_perm hC).mem_iff, List.mem_cons, or_comm]

theorem isSlot_emit (hi : i.isAlloca = false) {r : Register} : (f.emit c i).IsSlot r ↔ f.IsSlot r := by
  simp only [IsSlot, mem_instructions_emit hC]
  refine exists_congr fun t => or_iff_left ?_
  rintro rfl
  cases hi

theorem continues_emit (k : Ledger) (hi : i.isAlloca = false) : k.Continues f k (f.emit c i) :=
  { Ledger.Continues.refl k f with
    length := by simp [emit, modifyBlock]
    slot := fun _ => (isSlot_emit hC hi).mpr
    slot_old := fun _ _ => (isSlot_emit hC hi).mp }

omit hC in
/-- What stands at a place of a block with one more instruction. -/
theorem split_concat {l before after : List Instruction} {j : Instruction} (h : l ++ [i] = before ++ j :: after) :
    (before = l ∧ j = i) ∨ ∃ after', l = before ++ j :: after' := by
  rcases List.eq_nil_or_concat after with rfl | ⟨after', last, rfl⟩
  · obtain ⟨rfl, hj⟩ := List.append_inj' h rfl
    exact .inl ⟨rfl, (List.cons.inj hj).1.symm⟩
  · rw [List.concat_eq_append, ← List.cons_append, ← List.append_assoc] at h
    exact .inr ⟨after', (List.append_inj' h rfl).1⟩

/-- An instruction may be appended to an open block if what it uses is there and what it sets is new. -/
theorem Draft.emit (h : f.Draft I params k) (hopen : C.terminator = none) (hphi : i.isPhi = false) (halloca : i.isAlloca = false)
    (htyped : (k.grading I params).Types i) (hdest : ∀ r, i.dest? = some r → r < f.registers.size ∧ ∀ j ∈ f.instructions, j.dest? ≠ some r)
    (hoperands : ∀ v ∈ i.operands, f.Available C.instructions v)
    (hreading : ∀ r, .register r ∈ i.reading → f.IsSlot r → k.FilledAt c C.instructions r) : (f.emit c i).Draft I params k := by
  have hcont := continues_emit hC k halloca
  have hsucc : ({ C with instructions := C.instructions ++ [i] } : Block).successors = [] := by simp [Block.successors, hopen]
  refine h.of_changed hC hcont rfl rfl (labels_modifyBlock f c fun _ => rfl)
    (once_of_added h.once (instructions_emit_perm hC) fun r hr => (hdest r hr).2) (block?_emit hC) fun hold => ?_
  refine { numbered := hold.numbered, targets := by simp [hsucc], sized := ?_, no_phi := ?_, slots := ?_,
           operand := fun before j after hl v hv => ?_, final := by simp [hopen], reading := fun before j after hl r hr hslot => ?_,
           flow := by simp [hsucc], typed := ?_, typed_end := by simp [hopen] }
  · exact List.forall_mem_append.mpr ⟨hold.sized, List.forall_mem_singleton.mpr fun r hr => (hdest r hr).1⟩
  · exact List.forall_mem_append.mpr ⟨hold.no_phi, List.forall_mem_singleton.mpr hphi⟩
  · obtain ⟨slots, rest, hl, hslots, hrest, hb⟩ := hold.slots
    exact ⟨slots, rest ++ [i], by simp [hl], hslots, List.forall_mem_append.mpr ⟨hrest, List.forall_mem_singleton.mpr halloca⟩, hb⟩
  · rcases split_concat hl with ⟨rfl, rfl⟩ | ⟨after', hl'⟩
    · exact (hoperands v hv).mono hcont.slot
    · exact hold.operand before j after' hl' v hv
  · rcases split_concat hl with ⟨rfl, rfl⟩ | ⟨after', hl'⟩
    · exact hreading r hr ((isSlot_emit hC halloca).mp hslot)
    · exact hold.reading before j after' hl' r hr hslot
  · exact List.forall_mem_append.mpr ⟨hold.typed, List.forall_mem_singleton.mpr htyped⟩

end emit

/-! ## The end of a block -/

/-- Ends a block. -/
def terminate (f : Function) (c : BlockId) (t : Terminator) : Function :=
  f.modifyBlock c fun b => { b with terminator := some t }

section terminate

variable {c : BlockId} {C : Block} {t : Terminator}

theorem block?_terminate (hC : f.block? c = some C) (b : BlockId) :
    (f.terminate c t).block? b = if b = c then some { C with terminator := some t } else f.block? b :=
  block?_modifyBlock_at hC _ b

theorem instructions_terminate (hC : f.block? c = some C) : (f.terminate c t).instructions = f.instructions := by
  refine instructions_eq fun b => ?_
  rw [block?_terminate hC]
  split
  · rename_i hb
    rw [hb, hC]
    rfl
  · rfl

theorem continues_terminate (k : Ledger) (hC : f.block? c = some C) : k.Continues f k (f.terminate c t) :=
  { Ledger.Continues.refl k f with
    length := by simp [terminate, modifyBlock]
    slot := fun _ hr => by rwa [IsSlot, instructions_terminate hC]
    slot_old := fun _ _ hr => by rwa [IsSlot, instructions_terminate hC] at hr }

/-- An open block may be ended if what is used is there and the promises about the targets are kept. -/
theorem Draft.terminate (h : f.Draft I params k) (hC : f.block? c = some C)
    (htyped : (k.grading I params).TypesEnd f.ret t) (hoperands : ∀ v ∈ t.operands, f.Available C.instructions v)
    (htargets : ∀ s ∈ t.successors, s < f.blocks.length ∧ s ≠ 0 ∧ ∀ r, k.filled s r → k.FilledAt c C.instructions r) :
    (f.terminate c t).Draft I params k := by
  have hcont := continues_terminate (t := t) k hC
  refine h.of_changed hC hcont rfl rfl (labels_modifyBlock f c fun _ => rfl) (instructions_terminate hC ▸ h.once)
    (block?_terminate hC) fun hold => ?_
  refine { hold with targets := fun s hs => ?_, final := fun t' ht v hv => ?_, flow := fun s hs => (htargets s hs).2.2,
                     typed_end := fun t' ht => ?_ }
  · exact ⟨Nat.lt_of_lt_of_le (htargets s hs).1 hcont.length, (htargets s hs).2.1⟩
  · cases ht
    exact (hoperands v hv).mono hcont.slot
  · cases ht
    exact htyped

end terminate

/-! ## A new block -/

theorem instructions_addBlock (f : Function) (label : String) : (f.addBlock label).2.instructions = f.instructions := by
  simp [addBlock, instructions]

theorem continues_addBlock (k : Ledger) (f : Function) (label : String) : k.Continues f k (f.addBlock label).2 :=
  { Ledger.Continues.refl k f with
    length := by simp [addBlock]
    slot := fun _ hr => by rwa [IsSlot, instructions_addBlock]
    slot_old := fun _ _ hr => by rwa [IsSlot, instructions_addBlock] at hr }

theorem Draft.addBlock (h : f.Draft I params k) (label : String) : (f.addBlock label).2.Draft I params k := by
  refine h.of_continues (continues_addBlock k f label) rfl (labels_addBlock_nodup h.labels label)
    (instructions_addBlock f label ▸ h.once) h.start fun b B hB => ?_
  rw [block?_addBlock] at hB
  split at hB
  · cases hB
    exact .inl (.empty b _)
  · exact .inr ⟨hB, fun _ hr => hr, fun _ _ _ hr => hr⟩

/-- As long as nothing leads to an empty block, anything may be promised about it. -/
theorem Draft.promise (h : f.Draft I params k) {b : BlockId} {label : String} (hb : b ≠ 0) (hB : f.block? b = some { id := b, label })
    (hno : ∀ B ∈ f.blocks, b ∉ B.successors) (filled : Register → Prop) : f.Draft I params (k.promise b filled) := by
  have hcont : k.Continues f (k.promise b filled) f := { Ledger.Continues.refl k f with register := fun _ _ => rfl }
  refine h.of_continues hcont rfl h.labels h.once (fun r hr => ?_) fun x X hX => ?_
  · rw [k.filled_promise_of_ne filled (Ne.symm hb)] at hr
    exact h.start r hr
  · by_cases hx : x = b
    · subst hx
      obtain rfl : { id := x, label } = X := Option.some.inj (hB.symm.trans hX)
      exact .inl (.empty x label)
    · refine .inr ⟨hX, fun r hr => by rwa [k.filled_promise_of_ne filled hx], fun s hs r hr => ?_⟩
      have hne : s ≠ b := fun he => hno X (List.mem_of_getElem? hX) (he ▸ hs)
      rwa [k.filled_promise_of_ne filled hne] at hr

/-! ## A new slot -/

/-- Allocates a slot at the start of the entry. -/
def addSlot (f : Function) (type : Ty) : Function :=
  (f.addRegister .ptr).2.modifyBlock f.entry (·.insertAfterAllocas [.alloca f.registers.size type])

section addSlot

variable {type : Ty}

variable (h : f.Draft I params k)
include h

/-- The blocks after a slot was allocated. -/
theorem Draft.block?_addSlot (type : Ty) : ∃ E slots rest, f.block? 0 = some E ∧ E.instructions = slots ++ rest ∧
    (∀ i ∈ slots, i.isAlloca = true) ∧ (∀ i ∈ rest, i.isAlloca = false) ∧ ∀ b, (f.addSlot type).block? b =
      if b = 0 then some { E with instructions := slots ++ [.alloca f.registers.size type] ++ rest } else f.block? b := by
  obtain ⟨E, hE⟩ := h.entry_block
  obtain ⟨slots, rest, hl, hslots, hrest, -⟩ := (h.blocks 0 E hE).slots
  refine ⟨E, slots, rest, hE, hl, hslots, hrest, fun b => ?_⟩
  have hparts : rest.takeWhile (·.isAlloca) = [] ∧ rest.dropWhile (·.isAlloca) = rest := by
    cases rest with
    | nil => exact ⟨rfl, rfl⟩
    | cons i rest => simp [hrest i (by simp)]
  have hins := instructions_insertAfterAllocas E [.alloca f.registers.size type]
  rw [hl, List.takeWhile_append_of_pos hslots, List.dropWhile_append_of_pos hslots, hparts.1, hparts.2, List.append_nil] at hins
  rw [addSlot, h.entry, ← hins]
  exact block?_modifyBlock_at hE _ b

theorem Draft.instructions_addSlot_perm : (f.addSlot type).instructions.Perm (.alloca f.registers.size type :: f.instructions) := by
  obtain ⟨E, hE⟩ := h.entry_block
  exact instructions_modifyBlock_perm [_] (h.entry.symm ▸ hE) (insertAfterAllocas_perm E _)

theorem Draft.mem_instructions_addSlot {j : Instruction} :
    j ∈ (f.addSlot type).instructions ↔ j ∈ f.instructions ∨ j = .alloca f.registers.size type := by
  rw [h.instructions_addSlot_perm.mem_iff, List.mem_cons, or_comm]

theorem Draft.isSlot_addSlot {r : Register} : (f.addSlot type).IsSlot r ↔ f.IsSlot r ∨ r = f.registers.size := by
  simp only [IsSlot, h.mem_instructions_addSlot, exists_or]
  refine or_congr_right ⟨?_, fun hr => ⟨type, by rw [hr]⟩⟩
  rintro ⟨t, ht⟩
  cases ht
  rfl

theorem Draft.continues_addSlot (type : Ty) : k.Continues f (k.grade f.registers.size (.address type)) (f.addSlot type) :=
  { Ledger.Continues.refl k f with
    length := by simp [addSlot, modifyBlock, Function.addRegister]
    size := by simp [addSlot, modifyBlock, Function.addRegister]
    slot := fun _ hr => h.isSlot_addSlot.mpr (.inl hr)
    slot_old := fun _ hlt hr => (h.isSlot_addSlot.mp hr).resolve_right (Nat.ne_of_lt hlt)
    register := fun _ hr => if_neg (Nat.ne_of_lt hr) }

/-- A slot may be allocated at any time. -/
theorem Draft.addSlot : (f.addSlot type).Draft I params (k.grade f.registers.size (.address type)) := by
  have hcont := h.continues_addSlot type
  obtain ⟨E, slots, rest, hE, hl, hslots, hrest, hblocks⟩ := h.block?_addSlot type
  refine h.of_changed hE hcont rfl rfl (labels_modifyBlock _ f.entry fun _ => rfl) ?_ hblocks fun hold => ?_
  · refine once_of_added h.once h.instructions_addSlot_perm fun r hr j hj hjr => ?_
    cases hr
    exact Nat.lt_irrefl _ (h.sized hj hjr)
  -- An instruction of the entry is one that was there, or the new alloca.
  have hmem : ∀ {P : Instruction → Prop}, (∀ j ∈ E.instructions, P j) → P (.alloca f.registers.size type) →
      ∀ j ∈ slots ++ [.alloca f.registers.size type] ++ rest, P j := by
    simp only [hl, List.forall_mem_append, List.forall_mem_singleton]
    exact fun hP hnew => ⟨⟨hP.1, hnew⟩, hP.2⟩
  have hkept : ∀ j ∈ E.instructions, j ∈ slots ++ [.alloca f.registers.size type] ++ rest := by
    simp only [hl, List.mem_append]
    tauto
  refine { numbered := hold.numbered, targets := hold.targets, sized := hmem hold.sized ?_, no_phi := hmem hold.no_phi rfl, slots := ?_,
           operand := fun before j after hsplit v hv => ?_,
           final := fun t ht v hv r hr => (hold.final t ht v hv r hr).imp_right (Exists.imp fun i => And.imp_left (hkept i)),
           reading := fun before j after hsplit r hr hslot => ?_,
           flow := fun s hs r hr => (hold.flow s hs r hr).imp_right (Exists.imp fun i => And.imp_left (hkept i)),
           typed := hmem hold.typed (if_pos rfl), typed_end := hold.typed_end }
  · rintro r ⟨⟩
    simp [Function.addSlot, modifyBlock, Function.addRegister]
  · exact ⟨slots ++ [.alloca f.registers.size type], rest, rfl, List.forall_mem_append.mpr ⟨hslots, List.forall_mem_singleton.mpr rfl⟩,
      hrest, fun hne => absurd rfl hne⟩
  · rcases split_inserted hsplit with hj | ⟨own, own', hown, hsub⟩
    · rw [List.mem_singleton.mp hj] at hv
      cases hv
    · exact fun r hr => (hold.operand own j own' (hl.trans hown) v hv r hr).imp_right
        (Exists.imp fun i => And.imp_left (hsub i))
  · rcases split_inserted hsplit with hj | ⟨own, own', hown, hsub⟩
    · rw [List.mem_singleton.mp hj] at hr
      cases hr
    · exact (hold.reading own j own' (hl.trans hown) r hr hslot).imp_right (Exists.imp fun i => And.imp_left (hsub i))

end addSlot

/-! ## Finished drafts -/

namespace Draft

variable (h : f.Draft I params k)
include h

variable {b : BlockId} {before : List Instruction} {r : Register}

/-- The promises of the ledger are kept on every way. -/
theorem holds_filled (hf : k.FilledAt b before r) : f.Holds (.filled r) b before := by
  rcases hf with hf | ⟨j, hj, hg⟩
  · refine .inr fun hr => ?_
    induction hr with
    | entry => exact h.start r (h.entry ▸ hf)
    | edge _ hB hn hs ih =>
      rcases (h.blocks _ _ hB).flow _ hs r hf with hf | hg
      · exact ih hf
      · exact hn hg
  · exact .inl ⟨j, hj, hg⟩

/-- Every slot is allocated in the entry, before everything else. -/
theorem slot_in_entry {E : Block} (hE : f.block? 0 = some E) (hr : f.IsSlot r) :
    ∃ slots rest, E.instructions = slots ++ rest ∧ (∀ i ∈ slots, i.isAlloca = true) ∧ ∃ t, .alloca r t ∈ slots := by
  obtain ⟨t, ht⟩ := hr
  obtain ⟨b, B, hB, hmem⟩ := mem_instructions.mp ht
  obtain ⟨slots, rest, hl, hslots, hrest, hb⟩ := (h.blocks b B hB).slots
  have hslot : .alloca r t ∈ slots := by
    rcases List.mem_append.mp (hl ▸ hmem) with hm | hm
    · exact hm
    · cases hrest _ hm
  obtain rfl : b = 0 := Decidable.not_not.mp fun hne => by simp [hb hne] at hslot
  obtain rfl : E = B := Option.some.inj (hE.symm.trans hB)
  exact ⟨slots, rest, hl, hslots, t, hslot⟩

/-- What is available where something other than an alloca stands is there on every way. -/
theorem holds_set {B : Block} {after : List Instruction} (hB : f.block? b = some B) (hl : B.instructions = before ++ after)
    (hafter : ∀ i, after.head? = some i → i.isAlloca = false) (ha : f.Available before (.register r)) : f.Holds (.set r) b before := by
  rcases ha r rfl with hslot | ⟨j, hj, hr⟩
  · obtain ⟨E, hE⟩ := h.entry_block
    obtain ⟨slots, rest, hsplit, hslots, t, ht⟩ := h.slot_in_entry hE hslot
    by_cases hb : b = 0
    · subst hb
      obtain rfl : E = B := Option.some.inj (hE.symm.trans hB)
      refine .of_gives (i := .alloca r t) ?_ (show some r = some r from rfl)
      rcases List.append_eq_append_iff.mp (hl.symm.trans hsplit) with ⟨l, rfl, hl'⟩ | ⟨l, rfl, -⟩
      · cases l with
        | nil => simpa using ht
        | cons i l =>
          have := hafter i (by simp [hl'])
          rw [hslots i (by simp)] at this
          cases this
      · exact List.mem_append_left _ ht
    · rw [← h.entry] at hE hb
      have hentry : f.Holds (.set r) f.entry E.instructions :=
        .of_gives (i := .alloca r t) (hsplit ▸ List.mem_append_left _ ht) (show some r = some r from rfl)
      exact hentry.outside_entry hE (List.append_nil _).symm hb before
  · exact .of_gives hj hr

omit h in
/-- A register that is available is set somewhere. -/
theorem defined_of_available {B : Block} (hB : f.block? b = some B) (hsub : ∀ j ∈ before, j ∈ B.instructions)
    (ha : f.Available before (.register r)) : ∃ i ∈ f.instructions, i.dest? = some r := by
  rcases ha r rfl with ⟨t, ht⟩ | ⟨j, hj, hr⟩
  · exact ⟨_, ht, rfl⟩
  · exact ⟨j, mem_instructions.mpr ⟨b, B, hB, hsub j hj⟩, hr⟩

theorem shaped (hended : ∀ B ∈ f.blocks, B.terminator.isSome) : f.Shaped := by
  have hblock : ∀ {B}, B ∈ f.blocks → ∃ b, f.block? b = some B ∧ B.Drafted I params k f b := fun hB =>
    let ⟨b, hb⟩ := List.mem_iff_getElem?.mp hB
    ⟨b, hb, h.blocks b _ hb⟩
  refine { entry_lt := h.entry ▸ h.nonempty, ids := fun b B hB => (h.blocks b B hB).numbered, labels := h.labels, once := h.once, sized := fun i hi r => h.sized hi,
           defined := fun r hr => ?_, ended := hended, targets := fun B hB s hs => ?_, entry_free := fun B hB hs => ?_,
           phi_first := fun B hB i hi => ?_, phi_entry := fun B hB => (h.blocks _ B hB).no_phi,
           phi_edges := fun b B dest type incoming rest hB hl => ?_, slots_first := fun b B hB => ?_ }
  · rcases operands_cases hr with ⟨b, B, i, hb, hi, hv⟩ | ⟨b, B, t, hb, ht, hv⟩
    · obtain ⟨before, after, hl⟩ := List.append_of_mem hi
      exact defined_of_available hb (fun _ hj => hl ▸ List.mem_append_left _ hj) ((h.blocks b B hb).operand before i after hl _ hv)
    · exact defined_of_available hb (fun _ hj => hj) ((h.blocks b B hb).final t ht _ hv)
  · obtain ⟨b, -, hd⟩ := hblock hB
    exact (hd.targets s hs).1
  · obtain ⟨b, -, hd⟩ := hblock hB
    exact (hd.targets f.entry hs).2 h.entry
  · obtain ⟨b, -, hd⟩ := hblock hB
    exact hd.no_phi i (List.mem_of_mem_tail hi)
  · have := (h.blocks b B hB).no_phi (.phi dest type incoming) (by simp [hl])
    cases this
  · rw [h.entry]
    exact (h.blocks b B hB).slots

theorem settled : f.Settled where
  at_instruction := by
    intro b B before i after hB hl hphi fact hneeds
    have hd := h.blocks b B hB
    cases fact with
    | set r =>
      refine h.holds_set hB hl (fun j hj => ?_) (hd.operand before i after hl _ hneeds)
      obtain rfl : i = j := by simpa using hj
      cases i with
      | alloca => cases hneeds
      | _ => rfl
    | filled r => exact h.holds_filled (hd.reading before i after hl r hneeds.2 hneeds.1)
  at_end := fun b B t r hB ht hr =>
    h.holds_set hB (List.append_nil _).symm (by simp) ((h.blocks b B hB).final t ht _ hr)
  at_edge := by
    intro B hB dest type incoming hmem
    obtain ⟨b, hb⟩ := exists_block? hB
    cases (h.blocks b B hb).no_phi _ hmem

/-- A finished draft is well formed, if nothing leads to the blocks that are not meant to be reached. -/
theorem wellFormed (hsig : I.signature? f.name = some (params, f.ret)) (hparams : params.length = f.params.length)
    (hended : ∀ B ∈ f.blocks, B.terminator.isSome)
    (hdead : ∀ b B, f.block? b = some B → B.terminator = some .unreachable → b ≠ 0 ∧ ∀ P ∈ f.blocks, b ∉ P.successors) :
    f.WellFormed I where
  shaped := h.shaped hended
  settled := h.settled
  typed := by
    refine ⟨k.grading I params, rfl, hsig, hparams, fun i hi => ?_, fun B hB t ht => ?_⟩
    · obtain ⟨b, B, hB, hi⟩ := mem_instructions.mp hi
      exact (h.blocks b B hB).typed i hi
    · obtain ⟨b, hb⟩ := exists_block? hB
      exact (h.blocks b B hb).typed_end t ht
  no_dead_end := by
    intro b B hr hB ht
    obtain ⟨hb, hno⟩ := hdead b B hB ht
    cases hr with
    | entry => exact hb h.entry
    | edge _ hP _ hs => exact hno _ (List.mem_of_getElem? hP) hs

end Draft

end Function

end Ember.IR
