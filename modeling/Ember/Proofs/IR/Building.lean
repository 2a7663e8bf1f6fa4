import Ember.Proofs.Lower.Run

/-!
# Building in any order

The calls of a builder may come in any order, with any arguments, and fail. `Outcome` says once what a call can do: it is refused, it
wastes a register, or it takes one function a step further (`Advance`). The main statement is that after any row of calls the names,
the blocks, the labels and the registers are in order, that a terminator stays, and that a block which has one changes only by slots
that are allocated in the entry (`Builder.disciplined`).
-/

namespace Ember

namespace IR

/-- The calls by which functions are built. -/
inductive Builder.Call where
  | declare (name : String) (params : List (String × Ty)) (ret : Ty)
  | enter (index : Nat)
  | appendBlock (label : String)
  | moveTo (id : BlockId)
  | register (type : Ty)
  | binary (op : BinaryOp) (type : Ty) (left right : Value)
  | compare (pred : Predicate) (type : Ty) (left right : Value)
  | unary (op : UnaryOp) (type : Ty) (value : Value)
  | negate (type : Ty) (value : Value)
  | complement (type : Ty) (value : Value)
  | cast (op : CastOp) (value : Value) (source target : Ty)
  | load (type : Ty) (pointer : Value)
  | store (type : Ty) (value pointer : Value)
  | call (callee : String) (args : List Value) (ret : Ty)
  | slot (type : Ty)
  | jump (target : BlockId)
  | branch (cond : Value) (yes no : BlockId)
  | ret (value : Option Value)
  | unreachable

namespace Builder

/-- What a call does; its result is not looked at. -/
def Call.step : Call → Build Unit
  | .declare name params type => discard (Build.declare name params type)
  | .enter index => Build.enter index
  | .appendBlock label => discard (Build.appendBlock label)
  | .moveTo id => Build.moveTo id
  | .register type => discard (Build.register type)
  | .binary op type left right => discard (Build.binary op type left right)
  | .compare pred type left right => discard (Build.compare pred type left right)
  | .unary op type value => discard (Build.unary op type value)
  | .negate type value => discard (Build.negate type value)
  | .complement type value => discard (Build.complement type value)
  | .cast op value source target => discard (Build.cast op value source target)
  | .load type pointer => discard (Build.load type pointer)
  | .store type value pointer => Build.store type value pointer
  | .call callee args type => discard (Build.call callee args type)
  | .slot type => discard (Build.slot type)
  | .jump target => Build.jump target
  | .branch cond yes no => Build.branch cond yes no
  | .ret value => Build.ret value
  | .unreachable => Build.unreachable

/-- The builder after a call, also one that fails. -/
def after (b : Builder) (c : Call) : Builder :=
  match c.step b with
  | .ok _ b' => b'
  | .error _ b' => b'

/-- The builder after a row of calls. -/
def afterAll (b : Builder) (calls : List Call) : Builder :=
  calls.foldl after b

end Builder

open Builder (Call)

/-! ## What a call can do -/

/-- How a call takes the function that is being built a step further. -/
inductive Function.Advance (f : Function) : Call → Function → Prop where
  | register (type : Ty) : f.Advance (.register type) (f.addRegister type).2
  | block (label : String) : f.Advance (.appendBlock label) (f.addBlock label).2
  | instruction {c : Call} {id : BlockId} {B : Block} {i : Instruction} (hB : f.block? id = some B) (hopen : B.terminator = none)
      (hi : i.dest? = none) : f.Advance c (f.emit id i)
  | definition {c : Call} {id : BlockId} {B : Block} {i : Instruction} {type : Ty} (hB : f.block? id = some B)
      (hopen : B.terminator = none) (hi : i.dest? = some f.registers.size) : f.Advance c ((f.addRegister type).2.emit id i)
  | terminator {c : Call} {id : BlockId} {B : Block} {t : Terminator} (hB : f.block? id = some B) (hopen : B.terminator = none) :
      f.Advance c (f.terminate id t)
  | slot {type : Ty} {E : Block} (hE : f.block? f.entry = some E) : f.Advance (.slot type) (f.addSlot type)

namespace Builder

/-- What becomes of a builder by a call. -/
inductive Outcome {α : Type} (b : Builder) (c : Call) : EStateM.Result Fault Builder α → Prop where
  | refused (e : Fault) : b.Outcome c (.error e b)
  | wasted (e : Fault) {f : Function} {type : Ty} (hf : b.currentFunction? = some f) :
      b.Outcome c (.error e (b.update (f.addRegister type).2))
  | moved (a : α) {b' : Builder} (h : b'.module = b.module) : b.Outcome c (.ok a b')
  | declared (a : α) {f : Function} (hname : ∀ g ∈ b.module.functions, g.name ≠ f.name) (hblocks : f.blocks = []) :
      b.Outcome c (.ok a { b with module := { b.module with functions := b.module.functions ++ [f] } })
  | advanced (a : α) {f f' : Function} (hf : b.currentFunction? = some f) (h : f.Advance c f') : b.Outcome c (.ok a (b.update f'))

variable {α : Type} {b : Builder} {c : Call}

theorem Outcome.discard {x : Build α} (h : b.Outcome c (x b)) : b.Outcome c (discard x b) := by
  have hx : ∀ r : EStateM.Result Fault Builder α, x b = r → b.Outcome c r →
      b.Outcome c (Functor.discard x b) := by
    intro r hr ho
    simp only [Functor.discard, Functor.mapConst, Function.comp, EStateM.map, hr]
    cases ho with
    | refused e => exact .refused e
    | wasted e hf => exact .wasted e hf
    | moved a h => exact .moved _ h
    | declared a hname hblocks => exact .declared _ hname hblocks
    | advanced a hf h => exact .advanced _ hf h
  exact hx _ rfl h

end Builder

namespace Build

variable (b : Builder) (c : Call) {type : Ty}

theorem function_cases : (∃ e, function b = .error e b) ∨ ∃ f, b.currentFunction? = some f := by
  unfold function
  rw [bind_of_ok (get_apply b)]
  cases hn : b.function with
  | none => exact .inl ⟨_, rfl⟩
  | some n =>
    cases hf : b.module.functions[n]? with
    | none => exact .inl ⟨_, by simp only [hf]; rfl⟩
    | some f => exact .inr ⟨f, Builder.currentFunction?_eq_some.mpr ⟨n, hn, hf⟩⟩

theorem block_cases : (∃ e, block b = .error e b) ∨ ∃ f id B, b.Cursor f id B := by
  unfold block
  rw [bind_of_ok (get_apply b)]
  cases hid : b.block with
  | none => exact .inl ⟨_, rfl⟩
  | some id =>
    rcases function_cases b with ⟨e, he⟩ | ⟨f, hf⟩
    · exact .inl ⟨e, bind_of_error he⟩
    · obtain ⟨n, -, hok⟩ := function_eq hf
      cases hB : f.block? id with
      | none => exact .inl ⟨_, by simp only [bind_of_ok hok, hB]; rfl⟩
      | some B => exact .inr ⟨f, id, B, hf, hid, hB⟩

/-- An instruction is appended to an open block, or nothing happens. -/
theorem emit_cases (i : Instruction) : (∃ e, emit i b = .error e b) ∨ ∃ f id B, b.Cursor f id B ∧ B.terminator = none := by
  rcases block_cases b with ⟨e, he⟩ | ⟨f, id, B, hc⟩
  · exact .inl ⟨e, bind_of_error he⟩
  · cases ht : B.isTerminated with
    | false => exact .inr ⟨f, id, B, hc, by simpa [Block.isTerminated] using ht⟩
    | true =>
      obtain ⟨n, -, hok⟩ := block_eq hc
      exact .inl ⟨.breach (.afterTerminator B.label), by simp only [emit, bind_of_ok hok, ht, if_true]; rfl⟩

/-- An open block is ended, or nothing happens. -/
theorem outcome_terminate (t : Terminator) : b.Outcome c (terminate t b) := by
  rcases block_cases b with ⟨e, he⟩ | ⟨f, id, B, hc⟩
  · rw [terminate, bind_of_error he]
    exact .refused e
  · cases ht : B.isTerminated with
    | false =>
      have hopen : B.terminator = none := by simpa [Block.isTerminated] using ht
      rw [terminate_eq hc hopen]
      exact .advanced () hc.function (.terminator hc.here hopen)
    | true =>
      obtain ⟨n, -, hok⟩ := block_eq hc
      simp only [terminate, bind_of_ok hok, ht, if_true]
      exact .refused _

theorem outcome_emit {i : Instruction} (hi : i.dest? = none) : b.Outcome c (emit i b) := by
  rcases emit_cases b i with ⟨e, he⟩ | ⟨f, id, B, hc, ht⟩
  · rw [he]
    exact .refused e
  · rw [emit_eq hc ht]
    exact .advanced () hc.function (.instruction hc.here ht hi)

/-- A register that was taken for an instruction is wasted if the instruction cannot be appended. -/
theorem outcome_define {i : Register → Instruction} (hi : ∀ r, (i r).dest? = some r) : b.Outcome c (define type i b) := by
  unfold define
  rcases function_cases b with ⟨e, he⟩ | ⟨f, hf⟩
  · rw [register, bind_of_error (bind_of_error he)]
    exact .refused e
  · rw [bind_of_ok (register_eq hf type)]
    rcases emit_cases (b.update (f.addRegister type).2) (i f.registers.size) with ⟨e, he⟩ | ⟨g, id, B, hc, ht⟩
    · rw [bind_of_error he]
      exact .wasted e hf
    · rw [bind_of_ok (emit_eq hc ht _), Builder.update_update]
      obtain rfl : (f.addRegister type).2 = g := Option.some.inj ((Builder.currentFunction?_update hf).symm.trans hc.function)
      exact .advanced _ hf (.definition (B := B) hc.here ht (hi _))

theorem outcome_slot (type : Ty) : b.Outcome (.slot type) (slot type b) := by
  rcases function_cases b with ⟨e, he⟩ | ⟨f, hf⟩
  · rw [slot, register, bind_of_error (bind_of_error he)]
    exact .refused e
  · cases hE : f.block? f.entry with
    | none =>
      have hg : (b.update (f.addRegister .ptr).2).currentFunction? = some (f.addRegister .ptr).2 := Builder.currentFunction?_update hf
      obtain ⟨n, -, hok⟩ := function_eq hg
      simp only [slot, bind_of_ok (register_eq hf .ptr), bind_of_ok hok,
        show (f.addRegister .ptr).2.block? (f.addRegister .ptr).2.entry = none from hE]
      exact .wasted _ hf
    | some E =>
      rw [slot_eq hf hE]
      exact .advanced _ hf (.slot hE)

theorem outcome_declare (name : String) (params : List (String × Ty)) (ret : Ty) : b.Outcome c (declare name params ret b) := by
  rw [declare, bind_of_ok (get_apply b)]
  cases hn : b.module.functionIndex? name with
  | some n => exact .moved _ rfl
  | none =>
    refine .declared (f := { name, params, ret }) _ (fun g hg => ?_) rfl
    simpa using List.findIdx?_eq_none_iff.mp hn g hg

theorem outcome_enter (index : Nat) : b.Outcome c (enter index b) := by
  rw [enter, bind_of_ok (get_apply b)]
  split
  · exact .refused _
  · exact .moved _ rfl

theorem outcome_appendBlock (label : String) : b.Outcome (.appendBlock label) (appendBlock label b) := by
  rcases function_cases b with ⟨e, he⟩ | ⟨f, hf⟩
  · rw [appendBlock, bind_of_error he]
    exact .refused e
  · rw [appendBlock_eq hf]
    exact .advanced _ hf (.block label)

theorem outcome_register (type : Ty) : b.Outcome (.register type) (register type b) := by
  rcases function_cases b with ⟨e, he⟩ | ⟨f, hf⟩
  · rw [register, bind_of_error he]
    exact .refused e
  · rw [register_eq hf]
    exact .advanced _ hf (.register type)

theorem outcome_call (callee : String) (args : List Value) (ret : Ty) : b.Outcome c (call callee args ret b) := by
  unfold call
  split
  · rcases emit_cases b (.call none callee args ret) with ⟨e, he⟩ | ⟨f, id, B, hc, ht⟩
    · rw [bind_of_error he]
      exact .refused e
    · rw [bind_of_ok (emit_eq hc ht _)]
      exact .advanced _ hc.function (.instruction hc.here ht rfl)
  · exact outcome_define b c fun _ => rfl

end Build

namespace Builder

/-- What every call can do. -/
theorem Call.outcome (c : Call) (b : Builder) : b.Outcome c (c.step b) := by
  cases c with
  | declare name params ret => exact (Build.outcome_declare b _ name params ret).discard
  | enter index => exact Build.outcome_enter b _ index
  | appendBlock label => exact (Build.outcome_appendBlock b label).discard
  | moveTo id => exact .moved _ rfl
  | register type => exact (Build.outcome_register b type).discard
  | store type value pointer => exact Build.outcome_emit b _ rfl
  | call callee args ret => exact (Build.outcome_call b _ callee args ret).discard
  | slot type => exact (Build.outcome_slot b type).discard
  | jump target | branch cond yes no | ret value | unreachable => exact Build.outcome_terminate b _ _
  | _ => exact (Build.outcome_define b _ fun _ => rfl).discard

end Builder

/-! ## Order -/

/-- The blocks of a function are where their names say, their labels differ, and every register is set at most once and typed. -/
structure Function.Orderly (f : Function) : Prop where
  ids : ∀ id B, f.block? id = some B → B.id = id
  labels : f.labels.Nodup
  once : (f.instructions.filterMap (·.dest?)).Nodup
  typed : ∀ i ∈ f.instructions, ∀ r, i.dest? = some r → ∃ type, f.registerType? r = some type

/-- The functions of a module have names of their own and are in order. -/
structure Builder.Orderly (b : Builder) : Prop where
  names : (b.module.functions.map (·.name)).Nodup
  functions : ∀ f ∈ b.module.functions, f.Orderly

namespace Function

variable {f f' : Function} {id : BlockId} {B : Block} {c : Call}

theorem exists_registerType {r : Register} : (∃ type, f.registerType? r = some type) ↔ r < f.registers.size := by
  simp [registerType?, ← Option.isSome_iff_exists]

/-- A function stays in order if a block is changed in which only registers are set that are new. -/
theorem Orderly.modify {change : Block → Block} (h : f.Orderly) (added : List Instruction) (hB : f.block? id = some B)
    (hblocks : f'.blocks = (f.modifyBlock id change).blocks) (hsize : f.registers.size ≤ f'.registers.size)
    (hchange : ∀ A, (change A).id = A.id ∧ (change A).label = A.label) (hperm : (change B).instructions.Perm (added ++ B.instructions))
    (honce : (added.filterMap (·.dest?)).Nodup) (hnew : ∀ r ∈ added.filterMap (·.dest?), f.registers.size ≤ r ∧ r < f'.registers.size) :
    f'.Orderly := by
  have hold : ∀ r ∈ f.instructions.filterMap (·.dest?), r < f.registers.size := by
    intro r hr
    obtain ⟨i, hi, hir⟩ := List.mem_filterMap.mp hr
    exact exists_registerType.mp (h.typed i hi r hir)
  have hinstructions : f'.instructions.Perm (added ++ f.instructions) := by
    rw [instructions, hblocks]
    exact instructions_modifyBlock_perm added hB hperm
  have hdests := hinstructions.filterMap (·.dest?)
  rw [List.filterMap_append] at hdests
  refine ⟨fun x X hX => ?_, ?_, ?_, fun i hi r hr => exists_registerType.mpr ?_⟩
  · rw [block?, hblocks, ← block?, block?_modifyBlock] at hX
    obtain ⟨A, hA, rfl⟩ := Option.map_eq_some_iff.mp hX
    rw [← h.ids x A hA]
    split
    · exact (hchange A).1
    · rfl
  · have : f'.labels = (f.modifyBlock id change).labels := by rw [Function.labels, hblocks, Function.labels]
    rw [this, labels_modifyBlock f id fun A => (hchange A).2]
    exact h.labels
  · refine hdests.nodup_iff.mpr (List.nodup_append.mpr ⟨honce, h.once, fun a ha r hr he => ?_⟩)
    exact absurd (hold r hr) (Nat.not_lt_of_le (he ▸ (hnew a ha).1))
  · rcases List.mem_append.mp (hdests.mem_iff.mp (List.mem_filterMap.mpr ⟨i, hi, hr⟩)) with hr | hr
    · exact (hnew r hr).2
    · exact Nat.lt_of_lt_of_le (hold r hr) hsize

theorem Orderly.addRegister (h : f.Orderly) (type : Ty) : (f.addRegister type).2.Orderly where
  ids := h.ids
  labels := h.labels
  once := h.once
  typed := fun i hi r hr => exists_registerType.mpr (by
    have := exists_registerType.mp (h.typed i hi r hr)
    simpa [Function.addRegister] using Nat.lt_succ_of_lt this)

theorem Orderly.addBlock (h : f.Orderly) (label : String) : (f.addBlock label).2.Orderly where
  ids := fun x X hX => by
    rw [block?_addBlock] at hX
    split at hX
    · cases hX
      rfl
    · exact h.ids x X hX
  labels := labels_addBlock_nodup h.labels label
  once := instructions_addBlock f label ▸ h.once
  typed := instructions_addBlock f label ▸ h.typed

/-- A step further keeps a function in order, and its name. -/
theorem Orderly.advance (h : f.Orderly) (ha : f.Advance c f') : f'.Orderly ∧ f'.name = f.name := by
  cases ha with
  | register type => exact ⟨h.addRegister type, rfl⟩
  | block label => exact ⟨h.addBlock label, rfl⟩
  | @instruction _ _ _ i hB hopen hi =>
    exact ⟨h.modify [i] hB rfl (Nat.le_refl _) (fun _ => ⟨rfl, rfl⟩) List.perm_append_comm (by simp [hi]) (by simp [hi]), rfl⟩
  | @definition _ _ _ i type hB hopen hi =>
    refine ⟨h.modify [i] hB rfl ?_ (fun _ => ⟨rfl, rfl⟩) List.perm_append_comm (by simp [hi]) ?_, rfl⟩
    · simp [emit, modifyBlock, Function.addRegister]
    · simp [hi, emit, modifyBlock, Function.addRegister]
  | terminator hB hopen =>
    exact ⟨h.modify [] hB rfl (Nat.le_refl _) (fun _ => ⟨rfl, rfl⟩) (List.Perm.refl _) (by simp) (by simp), rfl⟩
  | @slot type E hE =>
    refine ⟨h.modify [.alloca f.registers.size type] hE rfl ?_ (fun _ => ⟨rfl, rfl⟩) ?_ (by simp [Instruction.dest?]) ?_, rfl⟩
    · simp [addSlot, modifyBlock, Function.addRegister]
    · exact insertAfterAllocas_perm E _
    · simp [Instruction.dest?, addSlot, modifyBlock, Function.addRegister]

/-- What a call may make of a block that has its end: nothing, or a slot is allocated behind those at the start of the entry. -/
def Settles (f : Function) (c : Call) (id : BlockId) (B B' : Block) : Prop :=
  B' = B ∨ ∃ type dest, c = .slot type ∧ id = f.entry ∧ B' = B.insertAfterAllocas [.alloca dest type]

/-- A step further leaves a block with its end alone, slots apart. -/
theorem Advance.settles {t : Terminator} (ha : f.Advance c f') (hB : f.block? id = some B) (ht : B.terminator = some t) :
    ∃ B', f'.block? id = some B' ∧ f.Settles c id B B' := by
  -- An open block is not the one that has its end.
  have hother : ∀ {x : BlockId} {A : Block} {change : Block → Block}, f.block? x = some A → A.terminator = none →
      (f.modifyBlock x change).block? id = some B := by
    intro x A change hA hopen
    rw [block?_modifyBlock_at hA, if_neg, hB]
    rintro rfl
    obtain rfl := Option.some.inj (hA.symm.trans hB)
    cases hopen.symm.trans ht
  cases ha with
  | register type => exact ⟨B, hB, .inl rfl⟩
  | block label =>
    refine ⟨B, ?_, .inl rfl⟩
    rw [block?_addBlock, if_neg, hB]
    exact Nat.ne_of_lt (List.getElem?_eq_some_iff.mp hB).1
  | instruction hA hopen hi | definition hA hopen hi | terminator hA hopen => exact ⟨B, hother hA hopen, .inl rfl⟩
  | @slot type E hE =>
    have hslot : (f.addSlot type).block? id = if id = f.entry then some (E.insertAfterAllocas [.alloca f.registers.size type])
        else f.block? id := block?_modifyBlock_at hE _ id
    by_cases hid : id = f.entry
    · subst hid
      obtain rfl := Option.some.inj (hE.symm.trans hB)
      exact ⟨_, hslot.trans (if_pos rfl), .inr ⟨type, _, rfl, rfl, rfl⟩⟩
    · exact ⟨B, (hslot.trans (if_neg hid)).trans hB, .inl rfl⟩

theorem Settles.terminator {B' : Block} (h : f.Settles c id B B') : B'.terminator = B.terminator := by
  rcases h with rfl | ⟨_, _, -, -, rfl⟩ <;> rfl

end Function

namespace Builder

variable {b : Builder} {c : Call} {f f' : Function} {n : Nat} {id : BlockId} {B : Block} {t : Terminator}

/-- The functions of a builder after the one that is being built was replaced. -/
theorem getElem?_update (h : b.currentFunction? = some f) (f' : Function) : ∃ n : Nat, b.module.functions[n]? = some f ∧
    ∀ k : Nat, (b.update f').module.functions[k]? = if k = n then some f' else b.module.functions[k]? := by
  obtain ⟨n, hn, hf⟩ := currentFunction?_eq_some.mp h
  refine ⟨n, hf, fun k => ?_⟩
  simp only [update, Module.modifyFunction, hn, Option.getD_some, List.getElem?_modify]
  by_cases hk : k = n
  · simp [hk, hf]
  · simp [hk, Ne.symm hk]

theorem map_update {β : Type} (g : Function → β) (h : b.currentFunction? = some f) (hg : g f' = g f) :
    (b.update f').module.functions.map g = b.module.functions.map g := by
  obtain ⟨n, hn, hget⟩ := getElem?_update h f'
  refine List.ext_getElem? fun k => ?_
  rw [List.getElem?_map, List.getElem?_map, hget]
  split
  · simp [*]
  · rfl

theorem Orderly.update (h : b.Orderly) (hf : b.currentFunction? = some f) (hf' : f'.Orderly ∧ f'.name = f.name) :
    (b.update f').Orderly := by
  refine ⟨map_update (·.name) hf hf'.2 ▸ h.names, fun g hg => ?_⟩
  obtain ⟨n, -, hget⟩ := getElem?_update hf f'
  obtain ⟨k, hk⟩ := List.mem_iff_getElem?.mp hg
  rw [hget] at hk
  split at hk
  · exact Option.some.inj hk ▸ hf'.1
  · exact h.functions g (List.mem_of_getElem? hk)

/-- A call keeps the functions in order. -/
theorem Orderly.after (h : b.Orderly) (c : Call) : (b.after c).Orderly := by
  have hmem : ∀ {f}, b.currentFunction? = some f → f.Orderly := fun hf => by
    obtain ⟨n, -, hn⟩ := currentFunction?_eq_some.mp hf
    exact h.functions _ (List.mem_of_getElem? hn)
  have ho := c.outcome b
  rw [Builder.after]
  generalize c.step b = r at ho ⊢
  cases ho with
  | refused e => exact h
  | wasted e hf => exact h.update hf ⟨(hmem hf).addRegister _, rfl⟩
  | moved a hm => exact ⟨hm ▸ h.names, hm ▸ h.functions⟩
  | @declared _ f hname hblocks =>
    have hinstructions : f.instructions = [] := by rw [Function.instructions, hblocks, List.flatMap_nil]
    refine ⟨?_, fun g hg => ?_⟩
    · simpa [List.nodup_append, h.names] using hname
    · rcases List.mem_append.mp hg with hg | hg
      · exact h.functions g hg
      · rw [List.mem_singleton.mp hg]
        exact ⟨by simp [Function.block?, hblocks], by simp [Function.labels, hblocks], by simp [hinstructions], by simp [hinstructions]⟩
  | advanced a hf ha => exact h.update hf ((hmem hf).advance ha)

/-- A call leaves the blocks that have their end alone, slots apart. -/
theorem settles_after (hf : b.module.functions[n]? = some f) (hB : f.block? id = some B) (ht : B.terminator = some t) (c : Call) :
    ∃ f' B', (b.after c).module.functions[n]? = some f' ∧ f'.block? id = some B' ∧ f.Settles c id B B' := by
  have hsame : ∀ {b' : Builder}, b'.module.functions[n]? = some f →
      ∃ f' B', b'.module.functions[n]? = some f' ∧ f'.block? id = some B' ∧ f.Settles c id B B' :=
    fun h => ⟨f, B, h, hB, .inl rfl⟩
  have hupdate : ∀ {g g' : Function}, b.currentFunction? = some g →
      (∀ {B t}, g.block? id = some B → B.terminator = some t → ∃ B', g'.block? id = some B' ∧ g.Settles c id B B') →
      ∃ f' B', (b.update g').module.functions[n]? = some f' ∧ f'.block? id = some B' ∧ f.Settles c id B B' := by
    intro g g' hg hsettles
    obtain ⟨k, hk, hget⟩ := getElem?_update hg g'
    by_cases hn : n = k
    · obtain rfl : g = f := Option.some.inj (hk.symm.trans (hn ▸ hf))
      obtain ⟨B', hB', h⟩ := hsettles hB ht
      exact ⟨g', B', (hget n).trans (if_pos hn), hB', h⟩
    · exact hsame (((hget n).trans (if_neg hn)).trans hf)
  have ho := c.outcome b
  rw [after]
  generalize c.step b = r at ho ⊢
  cases ho with
  | refused e => exact hsame hf
  | wasted e hg => exact hupdate hg fun hB _ => ⟨_, hB, .inl rfl⟩
  | moved a hm => exact hsame (hm ▸ hf)
  | declared a hname hblocks => exact hsame ((List.getElem?_append_left (List.getElem?_eq_some_iff.mp hf).1).trans hf)
  | advanced a hg ha => exact hupdate hg fun hB ht => ha.settles hB ht

/-- A terminator stays, whatever calls follow. -/
theorem terminator_afterAll (hf : b.module.functions[n]? = some f)
    (hB : f.block? id = some B) (ht : B.terminator = some t) (calls : List Call) :
    ∃ f' B', (b.afterAll calls).module.functions[n]? = some f' ∧ f'.block? id = some B' ∧ B'.terminator = some t := by
  induction calls generalizing b f B with
  | nil => exact ⟨f, B, hf, hB, ht⟩
  | cons c calls ih =>
    obtain ⟨f', B', hf', hB', hs⟩ := settles_after hf hB ht c
    exact ih hf' hB' (hs.terminator.trans ht)

/-- A call that fails changes nothing, or it leaves the type of a register that is not used. -/
theorem of_error {e : Fault} {b' : Builder} (h : c.step b = .error e b') :
    b' = b ∨ ∃ f type, b.currentFunction? = some f ∧ b' = b.update (f.addRegister type).2 := by
  have ho := h ▸ c.outcome b
  cases ho with
  | refused e => exact .inl rfl
  | wasted e hf => exact .inr ⟨_, _, hf, rfl⟩

theorem orderly_afterAll (h : b.Orderly) (calls : List Call) : (b.afterAll calls).Orderly := by
  induction calls generalizing b with
  | nil => exact h
  | cons c calls ih => exact ih (h.after c)

/-- What a builder keeps to: its functions are in order, a block that has its end keeps it whatever calls follow, the next call changes
such a block only by a slot in the entry, and if it fails all blocks and globals stay, at most the type of a register was added. -/
structure Disciplined (b : Builder) : Prop where
  orderly : b.Orderly
  stays : ∀ (n : Nat) f id B t, b.module.functions[n]? = some f → f.block? id = some B → B.terminator = some t → ∀ more,
    ∃ f' B', (b.afterAll more).module.functions[n]? = some f' ∧ f'.block? id = some B' ∧ B'.terminator = some t
  settles : ∀ (n : Nat) f id B t, b.module.functions[n]? = some f → f.block? id = some B → B.terminator = some t → ∀ c,
    ∃ f' B', (b.after c).module.functions[n]? = some f' ∧ f'.block? id = some B' ∧ f.Settles c id B B'
  failed : ∀ (c : Call) e b', c.step b = .error e b' → b'.module.functions.map (·.blocks) = b.module.functions.map (·.blocks) ∧
    b'.module.globals = b.module.globals ∧ (b' = b ∨ ∃ f type, b.currentFunction? = some f ∧ b' = b.update (f.addRegister type).2)

/-- Any row of calls, failing or not, leaves a builder that keeps to all this. -/
theorem disciplined (name : String) (calls : List Call) : ((named name).afterAll calls).Disciplined where
  orderly := orderly_afterAll (b := named name) ⟨by simp [named], by simp [named]⟩ calls
  stays := fun _ _ _ _ _ hf hB ht => terminator_afterAll hf hB ht
  settles := fun _ _ _ _ _ hf hB ht => settles_after hf hB ht
  failed := fun c e b' h => by
    have hcases := of_error h
    refine ⟨?_, ?_, hcases⟩
    · rcases hcases with rfl | ⟨f, type, hf, rfl⟩
      · rfl
      · exact map_update (·.blocks) hf rfl
    · rcases hcases with rfl | ⟨f, type, hf, rfl⟩ <;> rfl

end Builder

end IR

end Ember
