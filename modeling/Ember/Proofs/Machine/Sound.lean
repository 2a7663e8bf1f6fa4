import Ember.Proofs.Machine.Runs
import Ember.Proofs.Machine.Typed

/-!
# Runs of well-formed modules

A frame of a well-formed module is sound while it runs: it is typed in the memory at hand (`Frame.Sound`). A run of a sound frame goes
through sound frames only, so what is to be shown of runs is shown of sound frames step by step (`Runs.induct_sound`). What holds at a
place of a function on every way to it, a frame at that place knows (`Frame.Knows`): a step adds to it only what its instruction gives.
-/

namespace Ember

open IR

/-- A datum that is no address. -/
def Datum.Plain (d : Datum) : Prop :=
  ∀ cell, d ≠ .pointer cell

theorem Datum.plain_constant (c : Constant) : (constant c).Plain :=
  fun _ h => Datum.noConfusion h

theorem Datum.Fits.plain {d : Datum} {t : Ty} (h : d.Fits t) : d.Plain := by
  rintro cell rfl
  exact h

/-- A frame of a function of the module, typed in the memory. -/
structure Frame.Sound (I : Interface) (m : Module) (f : Frame) (memory : Memory) : Prop where
  mem : f.function ∈ m.functions
  typed : ∃ L γ, L.Suits m ∧ L.Holds memory ∧ f.Typed L I γ

section

variable {m : Module} {I : Interface} {L : Layout} {γ : Grading} {f f' g : Frame} {memory memory' : Memory} {d : Datum}

/-- What holds of the result of an execution that comes to one. -/
theorem Meets.ok {α : Type} {x : Execution α} {post : α → Memory → Prop} {stop : Crash → Memory → Prop} {a : α}
    (h : Meets x memory post stop) (hx : x memory = .ok a memory') : post a memory' := by
  unfold Meets at h
  rwa [hx] at h

theorem Frame.Moves.function_eq (h : f.Moves m memory f' memory') : f'.function = f.function := by
  cases h with
  | @compute i rest d _ _ _ _ => cases i.dest? <;> rfl
  | goto _ _ _ _ => rfl

section

variable (hm : m.WellFormed I) (hL : L.Suits m) (hmem : L.Holds memory)
include hm hL hmem

/-- A typed frame stays typed when it moves. -/
theorem Frame.Typed.moves (hf : f.Typed L I γ) (h : f.Moves m memory f' memory') :
    ∃ more γ', (L.grow more).Holds memory' ∧ f'.Typed (L.grow more) I γ' := by
  have hstack : StackTyped L I f.function.ret [f] := ⟨⟨γ, hf⟩, rfl⟩
  obtain ⟨more, hmem', ⟨γ', hf'⟩, -⟩ := (step_typed hmem hm hL hstack).ok (Module.step_of_moves h)
  exact ⟨more, γ', hmem', hf'⟩

/-- What a typed frame returns has the type of its function. -/
theorem Frame.Typed.returns (hf : f.Typed L I γ) (h : f.Returns m d) : d.Fits f.function.ret := by
  have hstack : StackTyped L I f.function.ret [f] := ⟨⟨γ, hf⟩, rfl⟩
  exact ((step_typed hmem hm hL hstack).ok (Module.step_of_returns h)).1

omit hL in
/-- A function that is entered with arguments as its parameters are graded starts typed. -/
theorem typed_of_enters {name : String} {grades : List Grade} {ret : Ty} (hsig : I.signature? name = some (grades, ret))
    {args : List Datum} (hargs : List.Forall₂ (Datum.Has L) args grades) {dest : Option Register} (h : m.Enters name args dest g) :
    (∃ γ, g.Typed L I γ) ∧ g.function.ret = ret := by
  obtain ⟨-, hg, -, hret⟩ := (meets_enter hmem hm hsig hargs dest 0).ok (Module.enter_eq_ok.mpr ⟨h, by decide, rfl⟩)
  exact ⟨hg, hret⟩

omit hmem in
/-- The values of the arguments of a call are as the callee's parameters are graded. -/
theorem Frame.Typed.args (hf : f.Typed L I γ) {dest : Option Register} {callee : String} {args : List Value} {ret : Ty}
    {rest : List Instruction} (hp : f.pending = .call dest callee args ret :: rest) {values : List Datum}
    (hvalues : f.Supplies m args values) :
    ∃ grades, I.signature? callee = some (grades, ret) ∧ List.Forall₂ (Datum.Has L) values grades := by
  have hi := hf.mem_instructions (i := .call dest callee args ret) (by simp [hp])
  obtain ⟨⟨grades, hsig, hargs⟩, -, -⟩ := hf.graded.types _ hi
  have hrun : args.mapM ((f.behind rest).operand m) #[] = .ok values #[] :=
    Frame.mapM_operand_eq_ok.mpr ⟨hvalues.imp fun v d h => (f.value?_behind rest v).trans h, rfl⟩
  have hmeets : Meets (args.mapM ((f.behind rest).operand m)) #[] _ L.Stops :=
    (hf.ready hp rfl).meets_args hm hL hargs fun v => Function.mem_operands hi
  exact ⟨grades, hf.graded.interface ▸ hsig, (hmeets.ok hrun).2⟩

end

/-- A caller that gets the result of its call stays typed. -/
theorem Frame.Typed.put_result (hf : f.Typed L I γ) {dest : Option Register} {callee : String} {args : List Value}
    {ret : Ty} {rest : List Instruction} (hp : f.pending = .call dest callee args ret :: rest) (hd : d.Fits ret) (more : List Ty) :
    ((f.behind rest).put dest d).Typed (L.grow more) I γ := by
  have hi := hf.mem_instructions (i := .call dest callee args ret) (by simp [hp])
  obtain ⟨-, hdest, -⟩ := hf.graded.types _ hi
  have hlt : ∀ r, dest = some r → r < f.registers.size ∧ γ.register r = .datum ret := fun r hr =>
    ⟨hf.fills.size ▸ hf.graded.shaped.sized _ hi r hr, hdest r hr⟩
  have hrun : (f.behind rest).receive dest d #[] = .ok ((f.behind rest).put dest d) #[] :=
    Frame.receive_eq_ok.mpr ⟨fun r hr => (hlt r hr).1, rfl, rfl⟩
  have hmeets : Meets ((f.behind rest).receive dest d) #[] _ L.Stops := ((hf.behind_call hp rfl).grow more).meets_result hlt hd
  exact (hmeets.ok hrun).2.1

theorem IR.Module.Enters.mem {name : String} {args : List Datum} {dest : Option Register} (h : m.Enters name args dest g) :
    g.function ∈ m.functions := by
  obtain ⟨F, B, hF, -, -, rfl⟩ := h
  exact (Module.mem_of_function? hF).1

/-- The result of a run has the type of the function, and memory stays typed. -/
theorem Runs.typed (hm : m.WellFormed I) {depth : Nat} (h : Runs m depth f memory d memory') : ∀ {L : Layout} {γ : Grading},
    L.Suits m → L.Holds memory → f.Typed L I γ → d.Fits f.function.ret ∧ ∃ more, (L.grow more).Holds memory' := by
  induction h with
  | ret hd =>
    intro L γ hL hmem hf
    exact ⟨hf.returns hm hL hmem hd, [], by rwa [Layout.grow_nil]⟩
  | move hmove _ ih =>
    intro L γ hL hmem hf
    obtain ⟨more, γ', hmem', hf'⟩ := hf.moves hm hL hmem hmove
    obtain ⟨hd, more', hmem''⟩ := ih (hL.grow more) hmem' hf'
    exact ⟨hmove.function_eq ▸ hd, more ++ more', by rwa [← Layout.grow_grow]⟩
  | call hp hargs hg _ _ _ _ ihcallee ihrest =>
    intro L γ hL hmem hf
    obtain ⟨grades, hsig, hhas⟩ := hf.args hm hL hp hargs
    obtain ⟨⟨γ', hg'⟩, hret⟩ := typed_of_enters hm hmem hsig hhas hg
    obtain ⟨hd, more, hmem'⟩ := ihcallee hL hmem hg'
    obtain ⟨hresult, more', hmem''⟩ := ihrest (hL.grow more) hmem' (hf.put_result hp (hret ▸ hd) more)
    refine ⟨?_, more ++ more', by rwa [← Layout.grow_grow]⟩
    rwa [Frame.function_put] at hresult

namespace Frame

theorem Sound.moves (hm : m.WellFormed I) (hf : f.Sound I m memory) (h : f.Moves m memory f' memory') : f'.Sound I m memory' := by
  obtain ⟨hfun, L, γ, hL, hmem, hf⟩ := hf
  obtain ⟨more, γ', hmem', hf'⟩ := hf.moves hm hL hmem h
  exact ⟨h.function_eq ▸ hfun, L.grow more, γ', hL.grow more, hmem', hf'⟩

/-- A sound frame calls a function: that starts sound, gives a value of the type that the call says, and leaves the caller sound. -/
theorem Sound.call (hm : m.WellFormed I) (hf : f.Sound I m memory) {dest : Option Register} {callee : String} {args : List Value}
    {ret : Ty} {rest : List Instruction} (hp : f.pending = .call dest callee args ret :: rest) {values : List Datum}
    (hargs : f.Supplies m args values) (hg : m.Enters callee values dest g) :
    g.Sound I m memory ∧ ∀ {depth memory' d}, Runs m depth g memory d memory' →
      d.Fits ret ∧ ((f.behind rest).put dest d).Sound I m memory' := by
  obtain ⟨hfun, L, γ, hL, hmem, hf⟩ := hf
  obtain ⟨grades, hsig, hhas⟩ := hf.args hm hL hp hargs
  obtain ⟨⟨γ', hg'⟩, hret⟩ := typed_of_enters hm hmem hsig hhas hg
  refine ⟨⟨hg.mem, L, γ', hL, hmem, hg'⟩, fun hruns => ?_⟩
  obtain ⟨hd, more, hmem'⟩ := hruns.typed hm hL hmem hg'
  rw [hret] at hd
  refine ⟨hd, ?_, L.grow more, γ, hL.grow more, hmem', hf.put_result hp hd more⟩
  rwa [function_put]

end Frame

/-- What holds of runs of sound frames, shown step by step: where a frame returns, where it moves, and where it calls another function
that starts sound. -/
theorem Runs.induct_sound (hm : m.WellFormed I) {motive : Nat → Frame → Memory → Datum → Memory → Prop}
    (ret : ∀ {depth f memory d}, f.Sound I m memory → f.Returns m d → d.Plain → motive depth f memory d memory)
    (move : ∀ {depth f f' memory memory' memory'' d}, f.Sound I m memory → f.Moves m memory f' memory' →
      motive depth f' memory' d memory'' → motive depth f memory d memory'')
    (call : ∀ {depth f g memory memory' memory'' d result dest callee args ret rest values}, f.Sound I m memory →
      f.pending = .call dest callee args ret :: rest → f.Supplies m args values →
      m.Enters callee values dest g → depth + 1 < depthLimit → g.Sound I m memory → Runs m (depth + 1) g memory d memory' →
      d.Fits ret → f.Takes dest → motive (depth + 1) g memory d memory' →
      motive depth ((f.behind rest).put dest d) memory' result memory'' → motive depth f memory result memory'')
    {depth : Nat} (h : Runs m depth f memory d memory') (hf : f.Sound I m memory) : motive depth f memory d memory' := by
  induction h with
  | ret hd =>
    obtain ⟨-, L, γ, hL, hmem, htyped⟩ := id hf
    exact ret hf hd (htyped.returns hm hL hmem hd).plain
  | move hmove _ ih => exact move hf hmove (ih (hf.moves hm hmove))
  | call hp hargs hg hdepth hruns htakes _ ihcallee ihrest =>
    obtain ⟨hsound, hdone⟩ := hf.call hm hp hargs hg
    obtain ⟨hd, hput⟩ := hdone hruns
    exact call hf hp hargs hg hdepth hsound hruns hd htakes (ihcallee hsound) (ihrest hput)

/-! ## Where a frame is -/

namespace Frame

/-- The frame is in block `B`, behind the instructions `before`. -/
structure At (f : Frame) (B : Block) (before : List Instruction) : Prop where
  block : f.function.block? f.block = some B
  instructions : B.instructions = before ++ f.pending

variable {B A : Block} {before rest : List Instruction} {i : Instruction} {id : BlockId} {k : Fact} {r : Register}

theorem At.unique {B' : Block} {before' : List Instruction} (h : f.At B before) (h' : f.At B' before') : B = B' ∧ before = before' := by
  obtain rfl := Option.some.inj (h.block.symm.trans h'.block)
  exact ⟨rfl, List.append_cancel_right (h.instructions.symm.trans h'.instructions)⟩

@[simp] theorem block_put (f : Frame) (dest : Option Register) (d : Datum) : (f.put dest d).block = f.block := by
  cases dest <;> rfl

@[simp] theorem pending_put (f : Frame) (dest : Option Register) (d : Datum) : (f.put dest d).pending = f.pending := by
  cases dest <;> rfl

@[simp] theorem previous_put (f : Frame) (dest : Option Register) (d : Datum) : (f.put dest d).previous = f.previous := by
  cases dest <;> rfl

@[simp] theorem args_put (f : Frame) (dest : Option Register) (d : Datum) : (f.put dest d).args = f.args := by
  cases dest <;> rfl

theorem At.behind (h : f.At B before) (hp : f.pending = i :: rest) (dest : Option Register) (d : Datum) :
    ((f.behind rest).put dest d).At B (before ++ [i]) := by
  refine ⟨by simpa [Frame.behind] using h.block, ?_⟩
  simp [Frame.behind, h.instructions, hp]

theorem At.goto (h : f.function.block? id = some B) : (f.goto id B).At B [] :=
  ⟨h, rfl⟩

/-- The block to which the end of a block leads follows it. -/
theorem Leads.mem_successors (h : f.Leads m A.terminator id) : id ∈ A.successors := by
  unfold Block.successors
  cases ht : A.terminator with
  | none =>
    rw [ht] at h
    cases h
  | some t =>
    rw [ht] at h
    cases t with
    | ret value => cases value <;> cases h
    | jump target =>
      cases h
      exact List.mem_singleton_self _
    | branch cond yes no =>
      obtain ⟨c, n, -, -, rfl⟩ := h
      dsimp only [Terminator.successors]
      split <;> simp
    | unreachable => cases h

section

variable (hf : f.Sound I m memory)
include hf

theorem Sound.place : ∃ B before, f.At B before := by
  obtain ⟨-, L, γ, -, -, hf⟩ := hf
  obtain ⟨B, before, hB, hl⟩ := hf.block
  exact ⟨B, before, hB, hl⟩

theorem Sound.precedes {p : BlockId} (h : f.previous = some p) : f.function.Precedes p f.block := by
  obtain ⟨-, L, γ, -, -, hf⟩ := hf
  have := hf.previous
  rwa [h] at this

theorem Sound.wellFormed (hm : m.WellFormed I) : f.function.WellFormed I := by
  obtain ⟨B, before, hB, -⟩ := hf.place
  refine hm.bodies _ hf.mem ?_
  cases hb : f.function.blocks with
  | nil => simp [Function.block?, hb] at hB
  | cons C Cs => simp [Function.isDeclaration, hb]

theorem Sound.mem_instructions (hi : i ∈ f.pending) : i ∈ f.function.instructions := by
  obtain ⟨-, L, γ, -, -, hf⟩ := hf
  exact hf.mem_instructions hi

theorem Sound.size_registers : f.registers.size = f.function.registers.size := by
  obtain ⟨-, L, γ, -, -, hf⟩ := hf
  exact hf.fills.size

end

/-! ## What a frame knows -/

/-- The fact holds where the frame is. At the start of a block it is enough that it holds at the end of the block from which control
came. -/
def Knows (f : Frame) (k : Fact) : Prop :=
  ∃ B before, f.At B before ∧ (f.function.Holds k f.block before ∨
    before = [] ∧ ∃ p P, f.previous = some p ∧ f.function.block? p = some P ∧ f.function.Holds k p P.instructions)

/-- Behind an instruction a frame knows what it knew before, and what the instruction gives. -/
theorem Knows.of_behind {dest : Option Register} (hat : f.At B before) (hp : f.pending = i :: rest)
    (h : ((f.behind rest).put dest d).Knows k) : i.Gives k ∨ f.Knows k := by
  obtain ⟨B', before', hat', h⟩ := h
  obtain ⟨rfl, rfl⟩ := (hat.behind hp dest d).unique hat'
  rcases h with h | ⟨h, -⟩
  · rw [function_put, block_put] at h
    rcases h with ⟨j, hj, hg⟩ | h
    · rcases List.mem_append.mp hj with hj | hj
      · exact .inr ⟨B, before, hat, .inl (.of_gives hj hg)⟩
      · exact .inl (List.mem_singleton.mp hj ▸ hg)
    · exact .inr ⟨B, before, hat, .inl (.inr h)⟩
  · exact absurd h (by simp)

/-- At the start of a block a frame knows what it knew at the end of the block before. -/
theorem Knows.of_goto (hp : f.pending = []) (hA : f.function.block? f.block = some A) (hid : id ∈ A.successors)
    (hB : f.function.block? id = some B) (h : (f.goto id B).Knows k) : f.Knows k := by
  have hat : f.At A A.instructions := ⟨hA, by simp [hp]⟩
  obtain ⟨B', before', hat', h⟩ := h
  obtain ⟨rfl, rfl⟩ := (At.goto hB).unique hat'
  rcases h with h | ⟨-, p, P, hprev, hP, h⟩
  · exact ⟨A, _, hat, .inl (h.at_end hA hid)⟩
  · cases hprev
    obtain rfl := Option.some.inj (hA.symm.trans hP)
    exact ⟨A, _, hat, .inl h⟩

/-- At its start a function knows nothing. -/
theorem not_knows_frame {F : Function} {args : List Datum} {dest : Option Register} (hB : F.block? F.entry = some B) :
    ¬(F.frame args dest B).Knows k := by
  rintro ⟨B', before', hat', h⟩
  have hat : (F.frame args dest B).At B [] := ⟨hB, rfl⟩
  obtain ⟨rfl, rfl⟩ := hat.unique hat'
  rcases h with h | ⟨-, p, P, hprev, -⟩
  · rcases h with ⟨i, hi, -⟩ | h
    · cases hi
    · exact h .entry
  · cases hprev

/-- The next instruction uses the value: of the operands of a phi it uses that of the edge by which control came. -/
def Uses (f : Frame) : Instruction → Value → Prop
  | .phi _ _ incoming, v => ∃ p edge, f.previous = some p ∧ (incoming.find? fun (_, block) => block = p) = some edge ∧ v = edge.1
  | i, v => v ∈ i.operands

variable (hm : m.WellFormed I) (hf : f.Sound I m memory)
include hm hf

/-- A frame knows what its next instruction needs. -/
theorem Sound.knows_needed (hp : f.pending = i :: rest) (hphi : i.isPhi = false) (hk : f.function.Needs i k) : f.Knows k := by
  obtain ⟨B, before, hat⟩ := hf.place
  refine ⟨B, before, hat, .inl ?_⟩
  exact (hf.wellFormed hm).settled.at_instruction _ B before i rest hat.block (by rw [hat.instructions, hp]) hphi k hk

/-- At a phi a frame knows that the register of the edge by which it came is set. -/
theorem Sound.knows_edge {dest : Register} {type : Ty} {incoming : List (Value × BlockId)}
    (hp : f.pending = .phi dest type incoming :: rest) {p : BlockId} (hprev : f.previous = some p) (hr : (.register r, p) ∈ incoming) :
    f.Knows (.set r) := by
  obtain ⟨B, before, hat⟩ := hf.place
  have hwf := hf.wellFormed hm
  have hB := List.mem_of_getElem? hat.block
  have hl : B.instructions = before ++ .phi dest type incoming :: rest := by rw [hat.instructions, hp]
  obtain rfl := hwf.shaped.phi_head hB hl rfl
  obtain ⟨P, hP, -⟩ := hf.precedes hprev
  refine ⟨B, [], hat, .inr ⟨rfl, p, P, hprev, hP, ?_⟩⟩
  exact hwf.settled.at_edge B hB dest type incoming (by simp [hl]) r p P hr hP

/-- At the end of a block a frame knows that the registers that are used there are set. -/
theorem Sound.knows_end (hp : f.pending = []) (hA : f.function.block? f.block = some A) {t : Terminator} (ht : A.terminator = some t)
    (hr : .register r ∈ t.operands) : f.Knows (.set r) :=
  ⟨A, A.instructions, ⟨hA, by simp [hp]⟩, .inl ((hf.wellFormed hm).settled.at_end _ A t r hA ht hr)⟩

/-- A frame knows that the registers that its next instruction uses are set. -/
theorem Sound.knows_used (hp : f.pending = i :: rest) (hr : f.Uses i (.register r)) : f.Knows (.set r) := by
  cases i with
  | phi dest type incoming =>
    obtain ⟨p, edge, hprev, hfind, hr⟩ := hr
    have hedge : edge.2 = p := by simpa using List.find?_some hfind
    refine hf.knows_edge hm hp hprev ?_
    rw [hr, ← hedge]
    exact List.mem_of_find?_eq_some hfind
  | _ => exact hf.knows_needed hm hp rfl hr

end Frame

/-! ## Addresses -/

namespace Frame

variable {i : Instruction} {v : Value} {rest : List Instruction}

theorem Uses.mem_operands (h : f.Uses i v) : v ∈ i.operands := by
  cases i with
  | phi dest type incoming =>
    obtain ⟨p, edge, -, hfind, rfl⟩ := h
    exact List.mem_map_of_mem (List.mem_of_find?_eq_some hfind)
  | _ => exact h

/-- An operand that is graded as a datum has a value of its type. -/
theorem Typed.fits_value (hf : f.Typed L I γ) (hv : v ∈ f.function.operands) {t : Ty} (h : γ.Has v (.datum t))
    (hd : f.value? m v = some d) : d.Fits t := by
  obtain ⟨e, he, hfits⟩ : ∃ e : Datum, f.operand m v #[] = .ok e #[] ∧ e.Fits t := hf.fills.operand hf.graded.shaped hv h
  cases (operand_of_value hd).symm.trans he
  exact hfits

/-- What an instruction computes is no address, unless it allocates a slot. -/
theorem Sound.plain_result (hm : m.WellFormed I) (hf : f.Sound I m memory) (hp : f.pending = i :: rest) (hi : i.isAlloca = false)
    (h : f.Computes m memory i d memory') : d.Plain := by
  obtain ⟨-, L, γ, hL, hmem, hf⟩ := hf
  have hin := hf.mem_instructions (i := i) (by simp [hp])
  have htypes := hf.graded.types _ hin
  have hop : ∀ v ∈ i.operands, v ∈ f.function.operands := fun v hv => Function.mem_operands hin hv
  cases h with
  | assign hd =>
    obtain ⟨t, -, hv⟩ := htypes
    exact (hf.fits_value (hop _ (by simp [Instruction.operands])) hv hd).plain
  | alloca => cases hi
  | @load _ pointer type cell _ hcell hd =>
    obtain ⟨cell', ha, ht⟩ : ∃ cell', (f.behind rest).operand m pointer memory = .ok (.pointer cell') memory ∧
        L.cells[cell']? = some type :=
      (hf.ready hp hi).operand_reads hm hL (hop pointer (by simp [Instruction.operands])) htypes.2
    rw [operand_of_value ((f.value?_behind rest pointer).trans hcell)] at ha
    cases ha
    exact (hmem.typed cell _ d ht hd).plain
  | @phi _ _ incoming _ edge _ _ he hd =>
    have hmem := List.mem_of_find?_eq_some he
    exact (hf.fits_value (hop _ (List.mem_map_of_mem hmem)) (htypes.2 edge hmem) hd).plain
  | _ => exact fun _ h => Datum.noConfusion h

/-- What an instruction uses is no address, unless it works on memory. -/
theorem Sound.plain_used (hm : m.WellFormed I) (hf : f.Sound I m memory) (hp : f.pending = i :: rest) (hi : i.isAlloca = false)
    (h : f.Computes m memory i d memory') (hload : ∀ r p t, i ≠ .load r p t) (hstore : ∀ p v t, i ≠ .store p v t) (hv : f.Uses i v)
    {e : Datum} (he : f.value? m v = some e) : e.Plain := by
  have hplain := hf.plain_result hm hp hi h
  cases h with
  | assign hd =>
    obtain rfl := List.mem_singleton.mp hv
    cases hd.symm.trans he
    exact hplain
  | binary ha hb _ | compare ha hb _ =>
    rcases List.mem_pair.mp hv with rfl | rfl
    · cases ha.symm.trans he
      exact nofun
    · cases hb.symm.trans he
      exact nofun
  | unary ha _ | cast ha _ =>
    obtain rfl := List.mem_singleton.mp hv
    cases ha.symm.trans he
    exact nofun
  | alloca => cases hi
  | load _ _ => exact absurd rfl (hload _ _ _)
  | store _ _ _ => exact absurd rfl (hstore _ _ _)
  | phi hprev hfind hd =>
    obtain ⟨p, edge, hprev', hfind', rfl⟩ := hv
    cases hprev.symm.trans hprev'
    cases hfind.symm.trans hfind'
    cases hd.symm.trans he
    exact hplain

/-- What is stored is no address. -/
theorem Sound.plain_stored (hf : f.Sound I m memory) {pointer value : Value} {type : Ty}
    (hp : f.pending = .store pointer value type :: rest) (hd : f.value? m value = some d) : d.Plain := by
  obtain ⟨-, L, γ, hL, hmem, hf⟩ := hf
  have hin := hf.mem_instructions (i := .store pointer value type) (by simp [hp])
  exact (hf.fits_value (Function.mem_operands hin (by simp [Instruction.operands])) (hf.graded.types _ hin).2 hd).plain

/-- A register that is used and holds an address is a slot. -/
theorem Sound.isSlot (hf : f.Sound I m memory) {r : Register} (hr : .register r ∈ f.function.operands) {cell : Nat}
    (h : f.registers[r]? = some (.pointer cell)) : f.function.IsSlot r := by
  obtain ⟨-, L, γ, hL, hmem, hf⟩ := hf
  rcases hf.fills.registers r _ h with h | h
  · cases h
  · cases hg : γ.register r with
    | datum t =>
      rw [hg] at h
      exact h.elim
    | address t => exact ⟨t, hf.graded.isSlot hr hg⟩

end Frame

end

end Ember
