import Ember.Proofs.IR.WellFormed
import Ember.Proofs.Machine.Outcome

/-!
# What the check rules out

A module that passes the check is complete: everything that its functions name is there (`complete_of_check`). A running program
then never looks in vain for a function, a block, a register, a parameter or a global, and every call brings as many arguments as
its callee has parameters (`call_not_structural`). The frames of a running program carry what is needed for that from step to
step: their registers and arguments are those of their function, and what is still to be executed is part of it (`Frame.Checked`).
-/

namespace Ember

open IR

/-- Crashes because something is not there, or does not fit: a function, a block, its end, a register, a parameter, a global. -/
def Crash.Structural : Crash → Prop
  | .unknownFunction _ => True
  | .malformed (.argumentCount ..) => True
  | .malformed (.missingBlock _) => True
  | .malformed (.openBlock ..) => True
  | .malformed (.registerOutOfRange _) => True
  | .malformed (.parameterOutOfRange _) => True
  | .malformed (.unknownGlobal _) => True
  | _ => False

namespace IR

variable {m : Module}

/-- Whether a value that a function names is there. -/
def Function.Offers (m : Module) (f : Function) : Value → Prop
  | .register r => r < f.registers.size
  | .parameter i => i < f.params.length
  | .global name => ∃ g ∈ m.globals, g.name = name
  | _ => True

/-- Everything that a function names is there. -/
structure Function.Complete (m : Module) (f : Function) : Prop where
  entry_lt : f.entry < f.blocks.length
  dest_lt : ∀ i ∈ f.instructions, ∀ r, i.dest? = some r → r < f.registers.size
  offers : ∀ v ∈ f.operands, f.Offers m v
  targets : ∀ B ∈ f.blocks, ∀ s ∈ B.successors, s < f.blocks.length
  ended : ∀ B ∈ f.blocks, B.terminator.isSome
  calls : ∀ dest callee args ret, .call dest callee args ret ∈ f.instructions →
    ∃ g, m.function? callee = some g ∧ g.params.length = args.length

/-- The functions of a module with a body are complete. -/
def Module.Complete (m : Module) : Prop :=
  ∀ f ∈ m.functions, f.isDeclaration = false → f.Complete m

/-! ## From the check -/

namespace Function

variable {m : Module} {f : Function}

/-- An operand that passes the check is there. -/
theorem offers_of_check {defined : List Register} (hd : ∀ r ∈ defined, r < f.registers.size) {v : Value}
    (h : f.checkValue m defined v = .ok ()) : f.Offers m v := by
  cases v with
  | register r =>
    by_cases hr : defined.contains r = true
    · exact hd r (List.contains_iff_mem.mp hr)
    · rw [checkValue, if_neg hr] at h
      cases h
  | parameter i =>
    by_cases hi : i < f.params.length
    · exact hi
    · rw [checkValue, if_neg hi] at h
      cases h
  | global name =>
    by_cases hg : (m.global? name).isSome = true
    · obtain ⟨g, hg⟩ := Option.isSome_iff_exists.mp hg
      exact ⟨g, List.mem_of_find?_eq_some hg, by simpa using List.find?_some hg⟩
    · rw [checkValue, if_neg hg] at h
      cases h
  | _ => trivial

/-- A target that passes the check is a block. -/
theorem lt_of_checkTarget {label : String} {target : BlockId} (h : f.checkTarget label target = .ok ()) : target < f.blocks.length := by
  unfold checkTarget at h
  split at h
  · assumption
  · cases h

/-- A call that passes the check has a callee with as many parameters as there are arguments. -/
theorem callee_of_check {defined : List Register} {label callee : String} {dest : Option Register} {args : List Value} {ret : Ty}
    (h : f.checkInstruction m defined label (.call dest callee args ret) = .ok ()) :
    ∃ g, m.function? callee = some g ∧ g.params.length = args.length := by
  obtain ⟨_, -, h⟩ := bind_eq_ok_iff.mp h
  dsimp only at h
  split at h
  · cases h
  · rename_i g hg
    by_cases hlen : g.params.length = args.length
    · exact ⟨g, hg, hlen⟩
    · rw [if_pos hlen] at h
      cases h

/-- A function with a body that passes the check is complete. -/
theorem complete_of_check (hbody : f.isDeclaration = false) (h : f.check m = .ok ()) : f.Complete m := by
  unfold check at h
  rw [hbody, if_neg Bool.false_ne_true] at h
  have hentry : f.entry < f.blocks.length := by
    by_contra hle
    rw [if_pos (Nat.not_lt.mp hle)] at h
    cases h
  rw [if_neg (Nat.not_le.mpr hentry)] at h
  obtain ⟨defined, hdefined, h⟩ := bind_eq_ok_iff.mp h
  rw [forM_eq_ok_iff] at h
  obtain ⟨hcollected, -, hin⟩ := collectDefined_eq_ok_iff.mp hdefined
  have hlt : ∀ r ∈ defined, r < f.registers.size := fun r hr => (hin r (by simpa [hcollected] using hr)).1
  have hinstruction : ∀ B ∈ f.blocks, ∀ i ∈ B.instructions, f.checkInstruction m defined B.label i = .ok () := by
    intro B hB
    obtain ⟨_, hB, -⟩ := bind_eq_ok_iff.mp (h B hB)
    exact (forM_eq_ok_iff _ _).mp hB
  have hend : ∀ B ∈ f.blocks, ∃ t, B.terminator = some t ∧ f.checkTerminator m defined B.label t = .ok () := by
    intro B hB
    obtain ⟨_, -, hB⟩ := bind_eq_ok_iff.mp (h B hB)
    cases ht : B.terminator with
    | none =>
      rw [ht] at hB
      cases hB
    | some t =>
      rw [ht] at hB
      exact ⟨t, rfl, hB⟩
  exact {
    entry_lt := hentry
    dest_lt := fun i hi r hr => (hin r (List.mem_filterMap.mpr ⟨i, hi, hr⟩)).1
    offers := fun v hv => by
      rcases operands_cases hv with ⟨b, B, i, hB, hi, hv⟩ | ⟨b, B, t, hB, ht, hv⟩
      · obtain ⟨_, hops, -⟩ := bind_eq_ok_iff.mp (hinstruction B (List.mem_of_getElem? hB) i hi)
        exact offers_of_check hlt ((forM_eq_ok_iff _ _).mp hops v hv)
      · obtain ⟨t', ht', hcheck⟩ := hend B (List.mem_of_getElem? hB)
        cases ht.symm.trans ht'
        obtain ⟨_, hops, -⟩ := bind_eq_ok_iff.mp hcheck
        exact offers_of_check hlt ((forM_eq_ok_iff _ _).mp hops v hv)
    targets := fun B hB s hs => by
      obtain ⟨t, ht, hcheck⟩ := hend B hB
      obtain ⟨_, -, hcheck⟩ := bind_eq_ok_iff.mp hcheck
      obtain ⟨_, htargets, -⟩ := bind_eq_ok_iff.mp hcheck
      refine lt_of_checkTarget ((forM_eq_ok_iff _ _).mp htargets s ?_)
      simpa [Block.successors, ht] using hs
    ended := fun B hB => by
      obtain ⟨t, ht, -⟩ := hend B hB
      rw [ht]
      rfl
    calls := fun dest callee args ret hi => by
      obtain ⟨B, hB, hi⟩ := List.mem_flatMap.mp hi
      exact callee_of_check (hinstruction B hB _ hi) }

end Function

/-- A module that passes the check is complete. -/
theorem Module.complete_of_check (h : m.check = .ok ()) : m.Complete := by
  intro f hf hbody
  have hcheck := (forM_eq_ok_iff _ _).mp h f hf
  refine Function.complete_of_check hbody ?_
  cases hf : f.check m with
  | ok u => rfl
  | error what =>
    rw [hf] at hcheck
    cases hcheck

/-- A global has a cell. -/
theorem Module.exists_globalCell {name : String} (h : ∃ g ∈ m.globals, g.name = name) : ∃ cell, m.globalCell? name = some cell := by
  obtain ⟨g, hg, rfl⟩ := h
  obtain ⟨n, hn⟩ := List.mem_iff_getElem?.mp hg
  have hsome : (m.globals.zipIdx.reverse.find? fun x => x.1.name == g.name).isSome := by
    rw [List.find?_isSome]
    exact ⟨(g, n), List.mem_reverse.mpr (List.mem_zipIdx_iff_getElem?.mpr hn), beq_self_eq_true _⟩
  obtain ⟨p, hp⟩ := Option.isSome_iff_exists.mp hsome
  exact ⟨p.2, congrArg (Option.map Prod.snd) hp⟩

/-- The cell of a global is at its position. -/
theorem Module.getElem?_of_globalCell {name : String} {cell : Nat} (h : m.globalCell? name = some cell) :
    ∃ g, m.globals[cell]? = some g ∧ g.name = name := by
  obtain ⟨⟨g, n⟩, hp, rfl⟩ := Option.map_eq_some_iff.mp h
  have hmem := List.mem_reverse.mp (List.mem_of_find?_eq_some hp)
  exact ⟨g, List.mem_zipIdx_iff_getElem?.mp hmem, by simpa using List.find?_some hp⟩

end IR

/-! ## Along a run -/

/-- A frame of a complete function, with the registers and arguments of the function, that goes on with a part of one of its
blocks. -/
structure Frame.Checked (m : Module) (f : Frame) : Prop where
  complete : f.function.Complete m
  registers : f.registers.size = f.function.registers.size
  args : f.args.length = f.function.params.length
  block : ∃ B, f.function.block? f.block = some B ∧ ∀ i ∈ f.pending, i ∈ B.instructions

/-- The frames of a running program: each is checked, and the frame below has the register that receives its result. -/
def StackChecked (m : Module) : List Frame → Prop
  | [] => True
  | f :: callers => f.Checked m ∧ (∀ caller ∈ callers.head?, ∀ r, f.dest = some r → r < caller.registers.size) ∧
      StackChecked m callers

/-- The execution comes to a result for which `post` holds, or to a crash that is not structural, whatever the memory. -/
def Sure {α : Type} (x : Execution α) (post : α → Prop) : Prop :=
  ∀ memory, Meets x memory (fun a _ => post a) fun crash _ => ¬crash.Structural

section Sure

variable {α β : Type} {x : Execution α} {next : α → Execution β} {mid : α → Prop} {post : β → Prop}

theorem sure_pure {a : α} (h : mid a) : Sure (pure a) mid :=
  fun _ => meets_pure h

theorem sure_throw {crash : Crash} (h : ¬crash.Structural) : Sure (throw crash : Execution α) mid :=
  fun _ => meets_throw h

theorem Sure.bind (hx : Sure x mid) (hnext : ∀ a, mid a → Sure (next a) post) : Sure (x >>= next) post :=
  fun memory => (hx memory).bind fun a memory' ha => hnext a ha memory'

theorem Sure.mono {mid' : α → Prop} (hx : Sure x mid) (h : ∀ a, mid a → mid' a) : Sure x mid' :=
  fun memory => (hx memory).mono (fun a _ => h a) fun _ _ => id

end Sure

namespace Frame

variable {m : Module} {f : Frame} {v : Value}

variable (hf : f.Checked m)
include hf

/-- An instruction that is still to be executed is one of the function's. -/
theorem Checked.mem_instructions {i : Instruction} (hi : i ∈ f.pending) : i ∈ f.function.instructions := by
  obtain ⟨B, hB, hin⟩ := hf.block
  exact Function.mem_of_block? hB (hin i hi)

/-- An operand that the function offers has a value, unless it is a function. -/
theorem Checked.operand (hv : f.function.Offers m v) : Sure (f.operand m v) fun _ => True := by
  cases v with
  | register r =>
    have hr : r < f.registers.size := hf.registers ▸ hv
    simp only [Frame.operand, getElem?_pos f.registers r hr]
    exact sure_pure trivial
  | parameter i =>
    have hi : i < f.args.length := hf.args ▸ hv
    simp only [Frame.operand, getElem?_pos f.args i hi]
    exact sure_pure trivial
  | global name =>
    obtain ⟨cell, hcell⟩ := Module.exists_globalCell hv
    simp only [Frame.operand, hcell]
    exact sure_pure trivial
  | function name => exact sure_throw id
  | _ => exact sure_pure trivial

theorem Checked.constant (hv : f.function.Offers m v) : Sure (f.constant m v) fun _ => True := by
  refine (hf.operand hv).bind fun d _ => ?_
  cases d with
  | constant c => exact sure_pure trivial
  | _ => exact sure_throw id

theorem Checked.address (hv : f.function.Offers m v) : Sure (f.address m v) fun _ => True := by
  refine (hf.operand hv).bind fun d _ => ?_
  cases d with
  | pointer cell =>
    have hget : Sure (get : Execution Memory) fun _ => True := fun _ => meets_get trivial
    refine hget.bind fun memory _ => ?_
    split
    · exact sure_pure trivial
    · exact sure_throw id
  | _ => exact sure_throw id

omit hf in
theorem sure_resultOr {crash : Crash} (h : ¬crash.Structural) (result : Option Constant) : Sure (resultOr crash result) fun _ => True := by
  cases result with
  | some c => exact sure_pure trivial
  | none => exact sure_throw h

/-- Computing a result finds every operand. -/
theorem Checked.compute {i : Instruction} (hi : ∀ v ∈ i.operands, f.function.Offers m v) : Sure (f.compute m i) fun _ => True := by
  cases i with
  | assign => exact hf.operand (hi _ List.mem_cons_self)
  | binary | compare =>
    exact (hf.constant (hi _ List.mem_cons_self)).bind fun a _ =>
      (hf.constant (hi _ (List.mem_cons_of_mem _ List.mem_cons_self))).bind fun b _ => sure_resultOr id _
  | unary | cast => exact (hf.constant (hi _ List.mem_cons_self)).bind fun a _ => sure_resultOr id _
  | call => exact sure_pure trivial
  | alloca => exact fun _ => trivial
  | load => exact (hf.address (hi _ List.mem_cons_self)).bind fun cell _ _ => trivial
  | store =>
    exact (hf.address (hi _ List.mem_cons_self)).bind fun cell _ =>
      (hf.operand (hi _ (List.mem_cons_of_mem _ List.mem_cons_self))).bind fun d _ _ => trivial
  | phi dest type incoming =>
    unfold Frame.compute
    dsimp only
    split
    · exact sure_throw id
    · split
      · rename_i value block hfind
        exact hf.operand (hi _ (List.mem_map.mpr ⟨_, List.mem_of_find?_eq_some hfind, rfl⟩))
      · exact sure_throw id

/-- A frame with the register receives a result. -/
theorem Checked.receive {dest : Option Register} (hdest : ∀ r, dest = some r → r < f.registers.size) (d : Datum) :
    Sure (f.receive dest d) fun f' => f'.Checked m ∧ f'.registers.size = f.registers.size ∧ f'.dest = f.dest := by
  cases dest with
  | none => exact sure_pure ⟨hf, rfl, rfl⟩
  | some r =>
    simp only [Frame.receive, Frame.set, if_pos (hdest r rfl)]
    refine sure_pure ⟨⟨hf.complete, ?_, hf.args, hf.block⟩, Array.size_setIfInBounds, rfl⟩
    rw [Array.size_setIfInBounds]
    exact hf.registers

/-- Going to a block of the function keeps a frame checked. -/
theorem Checked.enterBlock {id : BlockId} (hid : id < f.function.blocks.length) (previous : Option BlockId) :
    Sure (f.enterBlock previous id) fun f' => f'.Checked m ∧ f'.dest = f.dest := by
  have hblock : f.function.block? id = some f.function.blocks[id] := List.getElem?_eq_getElem hid
  simp only [Frame.enterBlock, hblock]
  exact sure_pure ⟨⟨hf.complete, hf.registers, hf.args, _, hblock, fun _ h => h⟩, rfl⟩

end Frame

namespace IR.Module

variable {m : Module} {f : Frame} {callers : List Frame}

/-- Entering a function of a complete module with the right number of arguments. -/
theorem Complete.enter (hm : m.Complete) {name : String} {g : Function} (hg : m.function? name = some g) {args : List Datum}
    (hargs : args.length = g.params.length) (dest : Option Register) (depth : Nat) :
    Sure (m.enter name args dest depth) fun f => f.Checked m ∧ f.dest = dest := by
  unfold Module.enter
  simp only [hg]
  cases hbody : g.isDeclaration with
  | true => exact sure_throw id
  | false =>
    have hcomplete := hm g (mem_of_function? hg).1 hbody
    obtain ⟨B, hB⟩ : ∃ B, g.block? g.entry = some B := ⟨_, List.getElem?_eq_getElem hcomplete.entry_lt⟩
    simp only [Bool.false_eq_true, if_false, hargs, ne_eq, not_true_eq_false]
    split
    · exact sure_throw id
    · simp only [Frame.enterBlock, hB]
      exact sure_pure ⟨⟨hcomplete, Array.size_replicate, hargs, B, hB, fun _ h => h⟩, rfl⟩

/-- Executing an instruction keeps the frames checked. -/
theorem Complete.stepInstruction (hm : m.Complete) {i : Instruction} (hi : i ∈ f.function.instructions) (hf : f.Checked m)
    (hdest : ∀ caller ∈ callers.head?, ∀ r, f.dest = some r → r < caller.registers.size) (hcallers : StackChecked m callers) :
    Sure (m.stepInstruction f i callers) fun p => ∀ stack, p = .running stack → StackChecked m stack := by
  have hops : ∀ v ∈ i.operands, f.function.Offers m v := fun v hv => hf.complete.offers v (Function.mem_operands hi hv)
  have hreceive : ∀ result, Sure (f.receive i.dest? result) fun f' =>
      StackChecked m (f' :: callers) := fun result =>
    (hf.receive (fun r hr => hf.registers ▸ hf.complete.dest_lt i hi r hr) result).mono
      fun f' ⟨hf', hsize, hd⟩ => ⟨hf', hd ▸ hdest, hcallers⟩
  cases i with
  | call dest callee args ret =>
    obtain ⟨g, hg, hlen⟩ := hf.complete.calls dest callee args ret hi
    have hvalues : Sure (args.mapM (f.operand m)) fun values => values.length = args.length := fun memory =>
      (meets_mapM (fun _ _ => True) (fun _ => True) args
        (fun v hv memory _ => ((hf.operand (hops v hv)) memory).mono (fun _ _ _ => ⟨trivial, trivial⟩) fun _ _ => id)
        trivial).mono (fun _ _ h => h.1.length_eq.symm) fun _ _ => id
    refine hvalues.bind fun values hvalues => ?_
    refine (hm.enter hg (hvalues.trans hlen.symm) dest _).bind fun f' ⟨hf', hd⟩ => sure_pure fun stack hstack => ?_
    cases hstack
    refine ⟨hf', fun caller hcaller r hr => ?_, hf, hdest, hcallers⟩
    cases hcaller
    rw [hd] at hr
    exact hf.registers ▸ hf.complete.dest_lt _ hi r hr
  | _ =>
    refine (hf.compute hops).bind fun result _ => (hreceive result).bind fun f' hf' => sure_pure fun stack hstack => ?_
    cases hstack
    exact hf'

/-- Giving a result to the frames below keeps them checked. -/
theorem sure_deliver (result : Datum) {dest : Option Register}
    (hdest : ∀ caller ∈ callers.head?, ∀ r, dest = some r → r < caller.registers.size) (hcallers : StackChecked m callers) :
    Sure (deliver result dest callers) fun p => ∀ stack, p = .running stack → StackChecked m stack := by
  cases callers with
  | nil => exact sure_pure fun stack hstack => (by cases hstack)
  | cons caller rest =>
    refine (hcallers.1.receive (hdest caller rfl) result).bind fun f' ⟨hf', hsize, hd⟩ => sure_pure fun stack hstack => ?_
    cases hstack
    exact ⟨hf', hd ▸ hcallers.2.1, hcallers.2.2⟩

/-- Executing the end of a block keeps the frames checked. -/
theorem sure_stepTerminator (hf : f.Checked m)
    (hdest : ∀ caller ∈ callers.head?, ∀ r, f.dest = some r → r < caller.registers.size) (hcallers : StackChecked m callers) :
    Sure (m.stepTerminator f callers) fun p => ∀ stack, p = .running stack → StackChecked m stack := by
  obtain ⟨B, hB, -⟩ := hf.block
  have hmem := List.mem_of_getElem? hB
  obtain ⟨t, ht⟩ := Option.isSome_iff_exists.mp (hf.complete.ended B hmem)
  have hops : ∀ v ∈ t.operands, f.function.Offers m v := fun v hv =>
    hf.complete.offers v (Function.mem_operands_end hB ht hv)
  have hjump : ∀ target ∈ t.successors, Sure (do return Progress.running ((← f.jump target) :: callers))
      fun p => ∀ stack, p = .running stack → StackChecked m stack := by
    intro target htarget
    have hlt := hf.complete.targets B hmem target (by simpa [Block.successors, ht] using htarget)
    refine (hf.enterBlock hlt (some f.block)).bind fun f' hf' => sure_pure fun stack hstack => ?_
    cases hstack
    exact ⟨hf'.1, hf'.2 ▸ hdest, hcallers⟩
  unfold Module.stepTerminator
  simp only [hB, ht]
  cases t with
  | ret value =>
    cases value with
    | none => exact sure_deliver _ hdest hcallers
    | some v => exact (hf.operand (hops v (by simp [Terminator.operands]))).bind fun d _ => sure_deliver d hdest hcallers
  | jump target => exact hjump target (by simp [Terminator.successors])
  | branch cond yes no =>
    refine (hf.operand (hops cond (by simp [Terminator.operands]))).bind fun d _ => ?_
    have htaken : Sure (f.taken d) fun _ => True := by
      unfold Frame.taken
      split
      · split
        · exact sure_pure trivial
        · exact sure_throw id
      · exact sure_throw id
    refine htaken.bind fun taken _ => hjump _ ?_
    cases taken <;> simp [Terminator.successors]
  | unreachable => exact sure_throw id

/-- Every step of a complete module keeps the frames checked, or crashes for a reason that is not structural. -/
theorem Complete.step (hm : m.Complete) {stack : List Frame} (h : StackChecked m stack) :
    Sure (m.step stack) fun p => ∀ stack', p = .running stack' → StackChecked m stack' := by
  cases stack with
  | nil => exact sure_pure fun _ hstack => (by cases hstack)
  | cons f callers =>
    obtain ⟨hf, hdest, hcallers⟩ := h
    simp only [Module.step]
    cases hp : f.pending with
    | nil => exact sure_stepTerminator hf hdest hcallers
    | cons i rest =>
      obtain ⟨B, hB, hin⟩ := hf.block
      have hi : i ∈ f.function.instructions := hf.mem_instructions (by simp [hp])
      refine hm.stepInstruction hi ⟨hf.complete, hf.registers, hf.args, B, hB, ?_⟩ hdest hcallers
      exact fun j hj => hin j (by rw [hp]; exact List.mem_cons_of_mem _ hj)

end IR.Module

/-- A call of a function of a module that passes the check, with as many arguments as the function has parameters, never crashes
because something is not there or does not fit, whatever is in memory and however long it runs. -/
theorem Machine.call_not_structural {machine : Machine} (hcheck : machine.module.check = .ok ()) {name : String} {f : IR.Function}
    (hf : machine.module.function? name = some f) {args : List Datum} (hargs : args.length = f.params.length) (crash : Crash)
    (hcrash : (machine.call name args).1 = .error crash) : ¬crash.Structural := by
  have hm := Module.complete_of_check hcheck
  have := Machine.call_meets (fun stack _ => StackChecked machine.module stack) (fun _ _ => True) (fun crash _ => ¬crash.Structural)
    ((hm.enter hf hargs none 0 machine.memory).mono (fun f _ ⟨hf, _⟩ => ⟨hf, fun _ h => (by cases h), trivial⟩) fun _ _ => id)
    (fun stack memory h => (hm.step h memory).mono (fun p _ hp => by
      cases p with
      | running stack' => exact hp stack' rfl
      | finished result => trivial) fun _ _ => id)
    fun _ _ _ => id
  cases hcall : machine.call name args with
  | mk result machine' =>
    rw [hcall] at hcrash this
    cases hcrash
    exact this

/-- A function that divides by zero for its caller: the call crashes, but not for want of anything. -/
theorem Machine.call_not_structural_division :
    let divide : IR.Function :=
      { name := "divide", params := [("x", .i32)], ret := .i32, registers := #[.i32],
        blocks := [{ id := 0, label := "entry", instructions := [.binary 0 .sdiv .i32 (.int 1) (.parameter 0)],
                     terminator := some (.ret (some (.register 0))) }] }
    let main : IR.Function :=
      { name := "main", params := [], ret := .i32, registers := #[.i32],
        blocks := [{ id := 0, label := "entry", instructions := [.call (some 0) "divide" [.int 0] .i32],
                     terminator := some (.ret (some (.register 0))) }] }
    let machine := Machine.ofModule { name := "m", functions := [divide, main] } 10
    machine.module.check = .ok () ∧ (machine.call "main" []).1 = .error (.trap "divide") ∧
      ¬(Crash.trap "divide").Structural := by
  intro divide main machine
  have hcheck : machine.module.check = .ok () := by decide +kernel
  have hcall : (machine.call "main" []).1 = .error (.trap "divide") := by decide +kernel
  have hmain : machine.module.function? "main" = some main := by decide +kernel
  exact ⟨hcheck, hcall, Machine.call_not_structural hcheck hmain rfl _ hcall⟩

end Ember
