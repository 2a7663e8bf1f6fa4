import Ember.Proofs.IR.Arithmetic
import Ember.Proofs.Machine.Checked

/-!
# Typed runs

A layout says what type of data every cell of memory holds, and which cells never change. The frames of a running program are
typed in a layout (`Frame.Typed`): registers and arguments hold what their grades say, and the slots of a function have been
allocated as soon as anything else in it runs. Every step of a well-formed module keeps memory and frames typed, in a layout that
may have grown (`step_typed`), and stops only for a reason that typing cannot rule out (`Crash.Ordinary`).
-/

namespace Ember

open IR

/-- Reasons to stop that do not show in types. -/
def Crash.Ordinary : Crash → Prop
  | .outOfFuel | .stackOverflow | .trap _ | .undefined _ | .declaration _ => True
  | _ => False

/-- What is known about the cells of memory: the type of what they hold, and what those hold that never change. -/
structure Layout where
  cells : List Ty
  fixed : Nat → Option Datum

/-- A datum is a value of a type, or undefined. -/
def Datum.Fits : Datum → Ty → Prop
  | .undef, _ => True
  | .constant c, t => c.Fits t
  | .unit, t => t = .void
  | .pointer _, _ => False

/-- A datum may be used as a grade says. A cell that never changes has no address that may be used. -/
def Datum.Has (L : Layout) (d : Datum) : Grade → Prop
  | .datum t => d.Fits t
  | .address t => ∃ cell, d = .pointer cell ∧ L.cells[cell]? = some t ∧ L.fixed cell = none

theorem getElem?_push_of_some {memory : Memory} {cell : Nat} {d : Datum} (h : memory[cell]? = some d) (e : Datum) :
    (memory.push e)[cell]? = some d := by
  have hlt := (Array.getElem?_eq_some_iff.mp h).1
  rw [Array.getElem?_push_lt hlt, ← h, getElem?_pos memory cell hlt]

namespace Layout

/-- Memory is laid out like that. -/
structure Holds (L : Layout) (memory : Memory) : Prop where
  size : memory.size = L.cells.length
  typed : ∀ (cell : Nat) t (d : Datum), L.cells[cell]? = some t → memory[cell]? = some d → d.Fits t
  fixed : ∀ (cell : Nat) d, L.fixed cell = some d → memory[cell]? = some d

/-- The layout has a cell for every global, and those that may be assigned are not fixed. -/
structure Suits (L : Layout) (m : Module) : Prop where
  globals : ∀ (cell : Nat) (g : Global), m.globals[cell]? = some g → L.cells[cell]? = some g.type
  mutable : ∀ (cell : Nat) (g : Global), m.globals[cell]? = some g → g.mutable = true → L.fixed cell = none

/-- The layout with more cells. -/
def grow (L : Layout) (more : List Ty) : Layout :=
  { L with cells := L.cells ++ more }

/-- The program stops for an ordinary reason, and memory is laid out like that, perhaps with more cells. -/
def Stops (L : Layout) (crash : Crash) (memory : Memory) : Prop :=
  crash.Ordinary ∧ ∃ more, (L.grow more).Holds memory

variable {L : Layout} {memory : Memory}

@[simp] theorem grow_nil (L : Layout) : L.grow [] = L := by
  simp [grow]

@[simp] theorem grow_grow (L : Layout) (a b : List Ty) : (L.grow a).grow b = L.grow (a ++ b) := by
  simp [grow]

variable {cell : Nat} {t : Ty}

theorem cells_grow (h : L.cells[cell]? = some t) (more : List Ty) : (L.grow more).cells[cell]? = some t := by
  obtain ⟨hlt, -⟩ := List.getElem?_eq_some_iff.mp h
  rw [grow, List.getElem?_append_left hlt, h]

variable (h : L.Holds memory)
include h

theorem Holds.stops {crash : Crash} (hcrash : crash.Ordinary) : L.Stops crash memory :=
  ⟨hcrash, [], by rwa [grow_nil]⟩

omit h in
theorem Suits.grow {m : Module} (h : L.Suits m) (more : List Ty) : (L.grow more).Suits m :=
  ⟨fun cell g hg => cells_grow (h.globals cell g hg) more, h.mutable⟩

/-- A cell of the layout is there. -/
theorem Holds.lt (hcell : L.cells[cell]? = some t) : cell < memory.size :=
  h.size ▸ (List.getElem?_eq_some_iff.mp hcell).1

/-- What is loaded from a cell has its type. -/
theorem Holds.load (hcell : L.cells[cell]? = some t) : (memory[cell]?.getD .undef).Fits t := by
  have hlt := h.lt hcell
  have hd : memory[cell]? = some memory[cell] := getElem?_pos memory cell hlt
  rw [hd]
  exact h.typed cell t _ hcell hd

/-- A value of its type may be stored in a cell that may change. -/
theorem Holds.store {d : Datum} (hcell : L.cells[cell]? = some t) (hfixed : L.fixed cell = none) (hd : d.Fits t) :
    L.Holds (memory.setIfInBounds cell d) where
  size := by rw [Array.size_setIfInBounds, h.size]
  typed := fun other t' d' hother hd' => by
    by_cases heq : cell = other
    · subst heq
      rw [Array.getElem?_setIfInBounds_self_of_lt (h.lt hcell)] at hd'
      cases hd'
      cases hcell.symm.trans hother
      exact hd
    · rw [Array.getElem?_setIfInBounds_ne heq] at hd'
      exact h.typed other t' d' hother hd'
  fixed := fun other d' hother => by
    have hne : cell ≠ other := by
      rintro rfl
      cases hfixed.symm.trans hother
    rw [Array.getElem?_setIfInBounds_ne hne]
    exact h.fixed other d' hother

/-- A new cell that nothing was stored to has any type. -/
theorem Holds.push (t : Ty) : (L.grow [t]).Holds (memory.push .undef) where
  size := by simp [grow, h.size]
  typed := fun cell t' d hcell hd => by
    rw [Array.getElem?_push] at hd
    split at hd
    · cases hd
      exact trivial
    · rename_i hne
      have hlt : cell < L.cells.length := by
        have := (List.getElem?_eq_some_iff.mp hcell).1
        simp only [grow, List.length_append, List.length_singleton] at this
        have := h.size
        omega
      rw [grow, List.getElem?_append_left hlt] at hcell
      exact h.typed cell t' d hcell hd
  fixed := fun cell d hcell => getElem?_push_of_some (h.fixed cell d hcell) _

/-- The next cell is not fixed. -/
theorem Holds.fixed_size : L.fixed memory.size = none := by
  refine Option.eq_none_iff_forall_ne_some.mpr fun d hd => ?_
  exact Nat.lt_irrefl _ (Array.getElem?_eq_some_iff.mp (h.fixed _ d hd)).1

end Layout

theorem Datum.Has.grow {L : Layout} {d : Datum} {g : Grade} (h : d.Has L g) (more : List Ty) : d.Has (L.grow more) g := by
  cases g with
  | datum t => exact h
  | address t =>
    obtain ⟨cell, rfl, hcell, hfixed⟩ := h
    exact ⟨cell, rfl, Layout.cells_grow hcell more, hfixed⟩

/-! ## Frames -/

/-- A body with the grades of its registers: it is shaped, typed and has no end that is not meant to be reached. -/
structure IR.Function.Graded (I : Interface) (γ : Grading) (f : Function) : Prop where
  shaped : f.Shaped
  interface : γ.interface = I
  length_params : γ.params.length = f.params.length
  types : ∀ i ∈ f.instructions, γ.Types i
  ends : ∀ B ∈ f.blocks, ∀ t, B.terminator = some t → γ.TypesEnd f.ret t
  no_dead_end : ∀ b B, f.Reachable b → f.block? b = some B → B.terminator ≠ some .unreachable

/-- A register that is graded as an address is a slot. -/
theorem IR.Function.Graded.isSlot {I : Interface} {γ : Grading} {f : Function} (hf : f.Graded I γ)
    {r : Register} (hr : .register r ∈ f.operands) {t : Ty} (h : γ.register r = .address t) : .alloca r t ∈ f.instructions := by
  obtain ⟨i, hi, hdest⟩ := hf.shaped.defined r hr
  have htypes := hf.types i hi
  cases i <;> simp_all [Grading.Types, Instruction.dest?]

namespace Frame

/-- Registers and arguments hold what their grades say. -/
structure Fills (L : Layout) (γ : Grading) (f : Frame) : Prop where
  args : List.Forall₂ (Datum.Has L) f.args γ.params
  size : f.registers.size = f.function.registers.size
  registers : ∀ r (d : Datum), f.registers[r]? = some d → d = .undef ∨ d.Has L (γ.register r)

/-- The slot has been allocated. -/
def Allocated (L : Layout) (f : Frame) (r : Register) (t : Ty) : Prop :=
  ∃ d, f.registers[r]? = some d ∧ d.Has L (.address t)

/-- A frame of a graded function that may run anything in it: all slots are allocated. -/
structure Ready (L : Layout) (I : Interface) (γ : Grading) (f : Frame) : Prop where
  graded : f.function.Graded I γ
  fills : f.Fills L γ
  slots : ∀ r t, .alloca r t ∈ f.function.instructions → f.Allocated L r t

/-- A frame of a graded function that goes on with the end of one of its blocks. A slot that is not allocated yet is about to be. -/
structure Typed (L : Layout) (I : Interface) (γ : Grading) (f : Frame) : Prop where
  graded : f.function.Graded I γ
  fills : f.Fills L γ
  slots : ∀ r t, .alloca r t ∈ f.function.instructions → .alloca r t ∈ f.pending ∨ f.Allocated L r t
  block : ∃ B before, f.function.block? f.block = some B ∧ B.instructions = before ++ f.pending
  reached : f.function.Reachable f.block
  previous : match f.previous with
    | none => f.block = f.function.entry
    | some p => f.function.Precedes p f.block

variable {m : Module} {I : Interface} {L : Layout} {γ : Grading} {f : Frame} {memory : Memory}
  {stop : Crash → Memory → Prop} {v : Value}

theorem Fills.grow (h : f.Fills L γ) (more : List Ty) : f.Fills (L.grow more) γ where
  args := h.args.imp fun _ _ hd => hd.grow more
  size := h.size
  registers := fun r d hd => (h.registers r d hd).imp_right fun hd => hd.grow more

variable {r : Register} {t : Ty} {i : Instruction} {rest : List Instruction} {d : Datum}

theorem Allocated.grow (h : f.Allocated L r t) (more : List Ty) : f.Allocated (L.grow more) r t := by
  obtain ⟨d, hd, hhas⟩ := h
  exact ⟨d, hd, hhas.grow more⟩

theorem Typed.grow (h : f.Typed L I γ) (more : List Ty) : f.Typed (L.grow more) I γ :=
  ⟨h.graded, h.fills.grow more, fun r t hr => (h.slots r t hr).imp_right fun ha => ha.grow more, h.block, h.reached, h.previous⟩

/-- The frame behind an instruction, if its registers hold what they should. -/
theorem Typed.advance (h : f.Typed L I γ) (hp : f.pending = i :: rest) {L' : Layout} {f' : Frame}
    (hf' : f' = { f with pending := rest, registers := f'.registers }) (hfills : f'.Fills L' γ)
    (hslots : ∀ r t, .alloca r t ∈ f.function.instructions → .alloca r t ∈ rest ∨ f'.Allocated L' r t) :
    f'.Typed L' I γ := by
  obtain ⟨B, before, hB, hl⟩ := h.block
  rw [hf'] at hfills hslots ⊢
  exact ⟨h.graded, hfills, hslots, ⟨B, before ++ [i], hB, by simp [hl, hp]⟩, h.reached, h.previous⟩

/-! ### Operands -/

/-- A global of the interface has a cell of its type, which may change if the global may be assigned. -/
theorem globalCell_typed (hm : m.WellFormed I) (hL : L.Suits m) {name : String} {mutable : Bool} (h : I.cell? name = some (t, mutable)) :
    ∃ cell, m.globalCell? name = some cell ∧ L.cells[cell]? = some t ∧ (mutable = true → L.fixed cell = none) := by
  obtain ⟨cell, hcell⟩ := Module.exists_globalCell (hm.cells name _ h)
  obtain ⟨g, hg, hname⟩ := Module.getElem?_of_globalCell hcell
  have := (hm.globals g (List.mem_of_getElem? hg)).1
  rw [hname, h] at this
  cases this
  exact ⟨cell, hcell, hL.globals cell g hg, hL.mutable cell g hg⟩

/-- An argument holds what its grade says. -/
theorem Fills.arg (hf : f.Fills L γ) {i : Nat} {g : Grade} (h : γ.params[i]? = some g) : ∃ d, f.args[i]? = some d ∧ d.Has L g := by
  obtain ⟨hi, rfl⟩ := List.getElem?_eq_some_iff.mp h
  have hi' : i < f.args.length := hf.args.length_eq ▸ hi
  exact ⟨f.args[i], List.getElem?_eq_getElem hi', hf.args.get hi' hi⟩

/-- An operand that is a datum has a value of its type. -/
theorem Fills.operand (hf : f.Fills L γ) (hs : f.function.Shaped) (hv : v ∈ f.function.operands) (h : γ.Has v (.datum t)) :
    ∃ d : Datum, f.operand m v memory = .ok d memory ∧ d.Fits t := by
  cases v with
  | register r =>
    have hr : r < f.registers.size := hf.size ▸ hs.operand_lt hv
    have hd : f.registers[r]? = some f.registers[r] := getElem?_pos f.registers r hr
    refine ⟨f.registers[r], by simp only [Frame.operand, hd]; rfl, ?_⟩
    rcases hf.registers r _ hd with hu | hhas
    · rw [hu]
      trivial
    · rw [show γ.register r = .datum t from h] at hhas
      exact hhas
  | constant c =>
    obtain ⟨t', ht, hc⟩ := h
    cases ht
    exact ⟨_, rfl, hc⟩
  | parameter i =>
    obtain ⟨d, hd, hhas⟩ := hf.arg h
    exact ⟨d, by simp only [Frame.operand, hd]; rfl, hhas⟩
  | global name =>
    obtain ⟨t', -, ht⟩ := h
    cases ht
  | function name => exact h.elim
  | undef t' => exact ⟨_, rfl, trivial⟩
  | unit =>
    cases h
    exact ⟨_, rfl, rfl⟩

theorem Fills.meets_constant (hf : f.Fills L γ) (hs : f.function.Shaped) (hmem : L.Holds memory) (hv : v ∈ f.function.operands)
    (h : γ.Has v (.datum t)) {next : Constant → Execution Datum} {post : Datum → Memory → Prop}
    (hnext : ∀ c : Constant, c.Fits t → Meets (next c) memory post L.Stops) : Meets (f.constant m v >>= next) memory post L.Stops := by
  obtain ⟨d, hd, hfits⟩ := hf.operand hs hv h
  unfold Frame.constant
  rw [bind_assoc]
  refine meets_bind_of_ok hd ?_
  cases d with
  | constant c => exact hnext c hfits
  | _ => exact meets_throw (hmem.stops trivial)

section Ready

variable (hm : m.WellFormed I) (hL : L.Suits m) (hf : f.Ready L I γ)
include hm hL hf

variable {v : Value}

/-- An operand that is an address has a cell of its type, which may change. -/
theorem Ready.operand_address (hv : v ∈ f.function.operands) {t : Ty} (h : γ.Has v (.address t)) :
    ∃ cell, f.operand m v memory = .ok (.pointer cell) memory ∧ L.cells[cell]? = some t ∧ L.fixed cell = none := by
  cases v with
  | register r =>
    obtain ⟨d, hd, cell, rfl, hcell, hfixed⟩ := hf.slots r t (hf.graded.isSlot hv h)
    exact ⟨cell, by simp only [Frame.operand, hd]; rfl, hcell, hfixed⟩
  | parameter i =>
    obtain ⟨d, hd, cell, rfl, hcell, hfixed⟩ := hf.fills.arg h
    exact ⟨cell, by simp only [Frame.operand, hd]; rfl, hcell, hfixed⟩
  | global name =>
    obtain ⟨t', hname, ht⟩ := h
    cases ht
    obtain ⟨cell, hat, hcell, hfixed⟩ := globalCell_typed hm hL (hf.graded.interface ▸ hname)
    exact ⟨cell, by simp only [Frame.operand, hat]; rfl, hcell, hfixed rfl⟩
  | constant c =>
    obtain ⟨t', ht, -⟩ := h
    cases ht
  | function name => exact h.elim
  | undef t' =>
    obtain ⟨t', ht⟩ := h
    cases ht
  | unit => cases h

/-- An operand that may be loaded from has a cell of its type. -/
theorem Ready.operand_reads (hv : v ∈ f.function.operands) {t : Ty} (h : γ.Reads v t) :
    ∃ cell, f.operand m v memory = .ok (.pointer cell) memory ∧ L.cells[cell]? = some t := by
  rcases h with h | ⟨name, rfl, h⟩
  · obtain ⟨cell, hd, hcell, -⟩ := hf.operand_address hm hL hv h
    exact ⟨cell, hd, hcell⟩
  · obtain ⟨cell, hat, hcell, -⟩ := globalCell_typed hm hL (hf.graded.interface ▸ h)
    exact ⟨cell, by simp only [Frame.operand, hat]; rfl, hcell⟩

/-- An operand has a value that may be used as its grade says. -/
theorem Ready.operand_has (hv : v ∈ f.function.operands) {g : Grade} (h : γ.Has v g) :
    ∃ d : Datum, f.operand m v memory = .ok d memory ∧ d.Has L g := by
  cases g with
  | datum t => exact hf.fills.operand hf.graded.shaped hv h
  | address t =>
    obtain ⟨cell, hd, hcell, hfixed⟩ := hf.operand_address hm hL hv h
    exact ⟨_, hd, cell, rfl, hcell, hfixed⟩

/-- The operands of a call have values that may be used as they are graded. -/
theorem Ready.meets_args {args : List Value} {grades : List Grade} (h : List.Forall₂ γ.Has args grades)
    (hargs : ∀ v ∈ args, v ∈ f.function.operands) :
    Meets (args.mapM (f.operand m)) memory (fun values memory' => memory' = memory ∧ List.Forall₂ (Datum.Has L) values grades)
      stop := by
  induction h with
  | nil => exact meets_pure ⟨rfl, .nil⟩
  | @cons v g args grades hv _ ih =>
    rw [List.mapM_cons]
    obtain ⟨d, hd, hhas⟩ := hf.operand_has hm hL (hargs v List.mem_cons_self) hv
    refine meets_bind_of_ok hd ?_
    refine (ih fun v hv => hargs v (List.mem_cons_of_mem _ hv)).bind fun values memory' ⟨hmemory, hvalues⟩ => ?_
    exact meets_pure ⟨hmemory, .cons hhas hvalues⟩

end Ready

/-- The cell to which an operand points is there. -/
theorem address_eq (hmem : L.Holds memory) {cell : Nat} (hd : f.operand m v memory = .ok (.pointer cell) memory)
    (hcell : L.cells[cell]? = some t) : f.address m v memory = .ok cell memory := by
  have hrun : f.address m v memory = (if cell < memory.size then pure cell else malformed (.notAddress (.pointer cell)) : Execution Nat) memory := by
    simp only [Frame.address, Bind.bind, EStateM.bind, hd]
    rfl
  rw [hrun, if_pos (hmem.lt hcell)]
  rfl

/-! ### Results -/

/-- An operation that has a result of its type. -/
theorem meets_resultOr {crash : Crash} {c : Constant} (hc : c.Fits t) {result : Option Constant} (h : result = some c) :
    Meets (resultOr crash result) memory (fun d memory' => memory' = memory ∧ d.Fits t) stop := by
  rw [h]
  exact meets_pure ⟨rfl, hc⟩

/-- Computing the result of an instruction gives a value as its destination is graded. Slots and calls have steps of their own. -/
theorem Ready.meets_compute (hm : m.WellFormed I) (hL : L.Suits m) (hf : f.Ready L I γ) (hmem : L.Holds memory)
    (hi : i ∈ f.function.instructions) (halloca : i.isAlloca = false) (hcall : i.callee? = none)
    (hphi : ∀ dest type incoming, i = .phi dest type incoming → ∃ p ∈ incoming.map (·.2), f.previous = some p) :
    Meets (f.compute m i) memory (fun d memory' => L.Holds memory' ∧ ∀ r, i.dest? = some r → d.Has L (γ.register r)) L.Stops := by
  have hγ := hf.graded
  have htypes := hγ.types i hi
  have hop : ∀ v ∈ i.operands, v ∈ f.function.operands := fun v hv => Function.mem_operands hi hv
  have hconstant {v t} (hv : v ∈ i.operands) := hf.fills.meets_constant (t := t) (m := m) hγ.shaped hmem (hop v hv)
  -- a value of a type goes to a register of that type
  have hdatum : ∀ {dest : Register} {t : Ty}, i.dest? = some dest → γ.register dest = .datum t → ∀ (d : Datum) memory',
      memory' = memory ∧ d.Fits t → L.Holds memory' ∧ ∀ r, i.dest? = some r → d.Has L (γ.register r) := by
    rintro dest t hdest ht d memory' ⟨rfl, hd⟩
    refine ⟨hmem, fun r hr => ?_⟩
    cases hdest.symm.trans hr
    rw [ht]
    exact hd
  cases i with
  | assign dest value =>
    obtain ⟨t, hdest, hvalue⟩ := htypes
    obtain ⟨d, hd, hfits⟩ := hf.fills.operand hγ.shaped (hop value (by simp [Instruction.operands])) hvalue
    exact meets_of_ok hd (hdatum rfl hdest d memory ⟨rfl, hfits⟩)
  | binary dest op type left right =>
    obtain ⟨hdest, htype, hl, hr⟩ := htypes
    refine hconstant (by simp [Instruction.operands]) hl fun a ha => ?_
    refine hconstant (by simp [Instruction.operands]) hr fun b hb => ?_
    cases hc : op.result? type a b with
    | none => exact meets_throw (hmem.stops trivial)
    | some c => exact (meets_resultOr (BinaryOp.result?_fits htype hc) rfl).mono (hdatum rfl hdest) fun _ _ => id
  | compare dest pred type left right =>
    obtain ⟨hdest, hpred, hl, hr⟩ := htypes
    refine hconstant (by simp [Instruction.operands]) hl fun a ha => ?_
    refine hconstant (by simp [Instruction.operands]) hr fun b hb => ?_
    obtain ⟨c, hc, hfits⟩ := Predicate.result?_fits hpred ha hb
    exact (meets_resultOr hfits hc).mono (hdatum rfl hdest) fun _ _ => id
  | unary dest op type value =>
    obtain ⟨hdest, hsuits, hv⟩ := htypes
    refine hconstant (by simp [Instruction.operands]) hv fun a ha => ?_
    obtain ⟨c, hc, hfits⟩ := UnaryOp.result?_fits hsuits ha
    exact (meets_resultOr hfits hc).mono (hdatum rfl hdest) fun _ _ => id
  | cast dest op value source target =>
    obtain ⟨hdest, hsuits, hv⟩ := htypes
    refine hconstant (by simp [Instruction.operands]) hv fun a ha => ?_
    obtain ⟨c, hc, hfits⟩ := CastOp.result?_fits hsuits ha
    exact (meets_resultOr hfits hc).mono (hdatum rfl hdest) fun _ _ => id
  | call dest callee args ret => cases hcall
  | alloca dest type => cases halloca
  | load dest pointer type =>
    obtain ⟨hdest, hp⟩ := htypes
    obtain ⟨cell, hd, hcell⟩ := hf.operand_reads hm hL (hop pointer (by simp [Instruction.operands])) hp
    refine meets_bind_of_ok (address_eq hmem hd hcell) ?_
    exact meets_bind_of_ok rfl (meets_pure (hdatum rfl hdest _ _ ⟨rfl, hmem.load hcell⟩))
  | store pointer value type =>
    obtain ⟨hp, hv⟩ := htypes
    obtain ⟨cell, hat, hcell, hfixed⟩ := hf.operand_address hm hL (hop pointer (by simp [Instruction.operands])) hp
    refine meets_bind_of_ok (address_eq hmem hat hcell) ?_
    obtain ⟨d, hd, hfits⟩ := hf.fills.operand hγ.shaped (hop value (by simp [Instruction.operands])) hv
    refine meets_bind_of_ok hd (meets_bind_of_ok rfl (meets_pure ⟨?_, by simp [Instruction.dest?]⟩))
    exact hmem.store hcell hfixed hfits
  | phi dest type incoming =>
    obtain ⟨hdest, hin⟩ := htypes
    obtain ⟨p, hp, hprev⟩ := hphi dest type incoming rfl
    obtain ⟨e, he, rfl⟩ := List.mem_map.mp hp
    obtain ⟨e', hfind⟩ : ∃ e', (incoming.find? fun e' => e'.2 = e.2) = some e' := by
      rw [← Option.isSome_iff_exists, List.find?_isSome]
      exact ⟨e, he, by simp⟩
    have he' := List.mem_of_find?_eq_some hfind
    obtain ⟨d, hd, hfits⟩ := hf.fills.operand hγ.shaped (hop e'.1 (List.mem_map_of_mem he')) (hin e' he')
    simp only [Frame.compute, hprev, hfind]
    exact meets_of_ok hd (hdatum rfl hdest d memory ⟨rfl, hfits⟩)

/-! ### Moving on -/

variable (h : f.Typed L I γ)
include h

/-- Before anything but a slot is run, all slots have been allocated: they stand first in their block. -/
theorem Typed.ready (hp : f.pending = i :: rest) (hi : i.isAlloca = false) : ({ f with pending := rest } : Frame).Ready L I γ := by
  refine ⟨h.graded, ⟨h.fills.args, h.fills.size, h.fills.registers⟩, fun r t hr => ?_⟩
  rcases h.slots r t hr with hmem | halloc
  · obtain ⟨B, before, hB, hl⟩ := h.block
    have hfirst := h.graded.shaped.slotsFirst hB
    rw [hp] at hl hmem
    rw [hl] at hfirst
    rcases List.mem_cons.mp hmem with rfl | hmem
    · cases hi
    · cases (hfirst.split hi).2 _ hmem
  · exact halloc

/-- At the end of a block all slots have been allocated. -/
theorem Typed.ready_end (hp : f.pending = []) : f.Ready L I γ := by
  refine ⟨h.graded, h.fills, fun r t hr => ?_⟩
  rcases h.slots r t hr with hmem | halloc
  · rw [hp] at hmem
    cases hmem
  · exact halloc

/-- An instruction that is about to be run is one of the function's. -/
theorem Typed.mem_instructions (hi : i ∈ f.pending) : i ∈ f.function.instructions := by
  obtain ⟨B, before, hB, hl⟩ := h.block
  exact Function.mem_of_block? hB (by rw [hl]; exact List.mem_append_right _ hi)

/-- A phi has an edge from the block from which control came. -/
theorem Typed.phi_edge {dest : Register} {type : Ty} {incoming : List (Value × BlockId)} (hp : f.pending = .phi dest type incoming :: rest) :
    ∃ p ∈ incoming.map (·.2), f.previous = some p := by
  obtain ⟨B, before, hB, hl⟩ := h.block
  have hs := h.graded.shaped
  rw [hp] at hl
  obtain rfl := hs.phi_head (List.mem_of_getElem? hB) hl rfl
  have hprev := h.previous
  cases hprevious : f.previous with
  | none =>
    rw [hprevious] at hprev
    have := hs.phi_entry B (hprev ▸ hB) (.phi dest type incoming) (by simp [hl])
    cases this
  | some p =>
    rw [hprevious] at hprev
    exact ⟨p, ((hs.phi_edges _ B dest type incoming rest hB hl).2 p).mpr hprev, rfl⟩

omit h in
/-- Setting a register to a value as it is graded. -/
theorem Fills.set (hf : f.Fills L γ) (hd : d.Has L (γ.register r)) :
    ({ f with registers := f.registers.setIfInBounds r d } : Frame).Fills L γ where
  args := hf.args
  size := by
    rw [Array.size_setIfInBounds]
    exact hf.size
  registers := fun q e he => by
    dsimp only at he
    by_cases hq : r = q
    · subst hq
      by_cases hr : r < f.registers.size
      · rw [Array.getElem?_setIfInBounds_self_of_lt hr] at he
        cases he
        exact .inr hd
      · rw [Array.setIfInBounds, dif_neg hr] at he
        exact hf.registers r e he
    · rw [Array.getElem?_setIfInBounds_ne hq] at he
      exact hf.registers q e he

omit h in
/-- A slot stays allocated when a register is set to a value as it is graded. -/
theorem Allocated.set {q : Register} (h : f.Allocated L q t) (hq : γ.register q = .address t) (hd : d.Has L (γ.register r)) :
    ({ f with registers := f.registers.setIfInBounds r d } : Frame).Allocated L q t := by
  obtain ⟨e, he, hhas⟩ := h
  by_cases hqr : r = q
  · subst hqr
    exact ⟨d, Array.getElem?_setIfInBounds_self_of_lt (Array.getElem?_eq_some_iff.mp he).1, hq ▸ hd⟩
  · exact ⟨e, by simpa only [Array.getElem?_setIfInBounds_ne hqr] using he, hhas⟩

/-- The frame behind an instruction whose result was received. -/
theorem Typed.meets_receive (hp : f.pending = i :: rest) (hd : ∀ r, i.dest? = some r → d.Has L (γ.register r)) :
    Meets (({ f with pending := rest } : Frame).receive i.dest? d) memory (fun f' memory' => memory' = memory ∧
      f'.Typed L I γ ∧ f'.dest = f.dest ∧ f'.function = f.function) stop := by
  have hi : i ∈ f.function.instructions := h.mem_instructions (by simp [hp])
  have htypes := h.graded.types i hi
  cases hdest : i.dest? with
  | none =>
    refine meets_pure ⟨rfl, h.advance hp rfl ⟨h.fills.args, h.fills.size, h.fills.registers⟩ fun r t hr => ?_, rfl, rfl⟩
    rcases h.slots r t hr with hmem | halloc
    · rw [hp] at hmem
      rcases List.mem_cons.mp hmem with rfl | hmem
      · cases hdest
      · exact .inl hmem
    · exact .inr halloc
  | some r =>
    have hr : r < f.registers.size := h.fills.size ▸ h.graded.shaped.sized i hi r hdest
    have hhas := hd r hdest
    have hset := h.fills.set hhas
    simp only [Frame.receive, Frame.set, if_pos hr]
    refine meets_pure ⟨rfl, h.advance hp rfl ⟨hset.args, hset.size, hset.registers⟩ fun q t hq => ?_, rfl, rfl⟩
    have hgrade : γ.register q = .address t := h.graded.types _ hq
    rcases h.slots q t hq with hmem | halloc
    · rw [hp] at hmem
      rcases List.mem_cons.mp hmem with rfl | hmem
      · -- the slot that was just allocated
        cases hdest
        exact .inr ⟨d, Array.getElem?_setIfInBounds_self_of_lt hr, hgrade ▸ hhas⟩
      · exact .inl hmem
    · exact .inr (halloc.set hgrade hhas)

/-- The frame of a caller behind the call, before the result comes. -/
theorem Typed.behind_call (hp : f.pending = i :: rest) (hi : i.isAlloca = false) : ({ f with pending := rest } : Frame).Typed L I γ :=
  h.advance hp rfl ⟨h.fills.args, h.fills.size, h.fills.registers⟩ fun r t hr => .inr ((h.ready hp hi).slots r t hr)

/-- A caller that receives the result of a call. -/
theorem Typed.meets_result {dest : Option Register} (hdest : ∀ r, dest = some r → r < f.registers.size ∧ γ.register r = .datum t)
    (hd : d.Fits t) : Meets (f.receive dest d) memory (fun f' memory' => memory' = memory ∧
      f'.Typed L I γ ∧ f'.dest = f.dest ∧ f'.function = f.function) stop := by
  cases dest with
  | none => exact meets_pure ⟨rfl, h, rfl, rfl⟩
  | some r =>
    obtain ⟨hr, hgrade⟩ := hdest r rfl
    have hd : d.Has L (γ.register r) := hgrade ▸ hd
    simp only [Frame.receive, Frame.set, if_pos hr]
    refine meets_pure ⟨rfl, ⟨h.graded, h.fills.set hd, fun q t' hq => ?_, h.block, h.reached, h.previous⟩, rfl, rfl⟩
    exact (h.slots q t' hq).imp_right fun halloc => halloc.set (h.graded.types _ hq) hd

/-- Going to a block that may follow. -/
theorem Typed.meets_jump (hp : f.pending = []) {B : Block} (hB : f.function.block? f.block = some B) {s : BlockId} (hs : s ∈ B.successors) :
    Meets (f.jump s) memory (fun f' memory' => memory' = memory ∧
      f'.Typed L I γ ∧ f'.dest = f.dest ∧ f'.function = f.function) stop := by
  have hlt : s < f.function.blocks.length := h.graded.shaped.targets B (List.mem_of_getElem? hB) s hs
  have hS : f.function.block? s = some f.function.blocks[s] := List.getElem?_eq_getElem hlt
  simp only [Frame.jump, Frame.enterBlock, hS]
  exact meets_pure ⟨rfl, ⟨h.graded, ⟨h.fills.args, h.fills.size, h.fills.registers⟩,
    fun r t hr => .inr ((h.ready_end hp).slots r t hr), ⟨_, [], hS, rfl⟩, h.reached.edge hB id hs, B, hB, hs⟩, rfl, rfl⟩

end Frame

/-! ## Stacks of frames -/

/-- The frames below a call are typed: the topmost waits for a result of type `ret`, and the last of them returns a `result`. -/
def Awaits (L : Layout) (I : Interface) (result : Ty) : List Frame → Option Register → Ty → Prop
  | [], _, ret => ret = result
  | f :: callers, dest, ret =>
    (∃ γ, f.Typed L I γ ∧ ∀ r, dest = some r → r < f.registers.size ∧ γ.register r = .datum ret) ∧
      Awaits L I result callers f.dest f.function.ret

/-- The frames of a program that is to return a `result`. -/
def StackTyped (L : Layout) (I : Interface) (result : Ty) : List Frame → Prop
  | [] => False
  | f :: callers => (∃ γ, f.Typed L I γ) ∧ Awaits L I result callers f.dest f.function.ret

/-- Memory and frames are typed, perhaps with more cells than the layout has. -/
def Running (L : Layout) (I : Interface) (result : Ty) (stack : List Frame) (memory : Memory) : Prop :=
  ∃ more, (L.grow more).Holds memory ∧ StackTyped (L.grow more) I result stack

/-- A result of the type, with a typed memory. -/
def Finished (L : Layout) (result : Ty) (d : Datum) (memory : Memory) : Prop :=
  d.Fits result ∧ ∃ more, (L.grow more).Holds memory

section Stacks

variable {m : Module} {I : Interface} {L : Layout} {result : Ty} {memory : Memory}

variable {callers stack : List Frame} {ret : Ty}

theorem Awaits.grow {dest : Option Register} (h : Awaits L I result callers dest ret) (more : List Ty) :
    Awaits (L.grow more) I result callers dest ret := by
  induction callers generalizing dest ret with
  | nil => exact h
  | cons f callers ih =>
    obtain ⟨⟨γ, hf, hdest⟩, hcallers⟩ := h
    exact ⟨⟨γ, hf.grow more, hdest⟩, ih hcallers⟩

section

variable (hmem : L.Holds memory)
include hmem

theorem running_of_typed (h : StackTyped L I result stack) : Running L I result stack memory :=
  ⟨[], by rwa [Layout.grow_nil], by rwa [Layout.grow_nil]⟩

/-- Giving a result to the frames that wait for it. -/
theorem meets_deliver {dest : Option Register} (h : Awaits L I result callers dest ret) {d : Datum} (hd : d.Fits ret) :
    Meets (Module.deliver d dest callers) memory (AfterStep (Running L I result) (Finished L result)) L.Stops := by
  cases callers with
  | nil => exact meets_pure ⟨h ▸ hd, [], by rwa [Layout.grow_nil]⟩
  | cons f callers =>
    obtain ⟨⟨γ, hf, hdest⟩, hcallers⟩ := h
    refine (hf.meets_result hdest hd).bind fun f' memory' ⟨hmemory, hf', hd', hfun⟩ => ?_
    subst hmemory
    exact meets_pure (running_of_typed hmem ⟨⟨γ, hf'⟩, by rwa [hd', hfun]⟩)

variable (hm : m.WellFormed I)
include hm

/-- Entering a function with arguments as its parameters are graded. -/
theorem meets_enter {name : String} {grades : List Grade} (hsig : I.signature? name = some (grades, ret)) {args : List Datum}
    (hargs : List.Forall₂ (Datum.Has L) args grades) (dest : Option Register) (depth : Nat) :
    Meets (m.enter name args dest depth) memory (fun f memory' => memory' = memory ∧
      (∃ γ, f.Typed L I γ) ∧ f.dest = dest ∧ f.function.ret = ret) L.Stops := by
  obtain ⟨g, hg, rfl⟩ := hm.callable name _ hsig
  obtain ⟨grades', hsig', hlen⟩ := hm.signed g hg
  cases hsig.symm.trans hsig'
  simp only [Module.enter, hm.function?_eq hg]
  cases hbody : g.isDeclaration with
  | true => exact meets_throw (hmem.stops trivial)
  | false =>
    have hwf := hm.bodies g hg hbody
    obtain ⟨γ, hI, hγ, -, htypes, hends⟩ := hwf.typed
    cases hsig.symm.trans hγ
    obtain ⟨B, hB⟩ : ∃ B, g.block? g.entry = some B := ⟨_, List.getElem?_eq_getElem hwf.shaped.entry_lt⟩
    have hcount : args.length = g.params.length := hargs.length_eq.trans hlen
    simp only [Bool.false_eq_true, if_false, hcount, ne_eq, not_true_eq_false]
    split
    · exact meets_throw (hmem.stops trivial)
    · simp only [Frame.enterBlock, hB]
      refine meets_pure ⟨rfl, ⟨γ, ⟨hwf.shaped, hI, hlen, htypes, hends, hwf.no_dead_end⟩,
        ⟨hargs, Array.size_replicate, ?_⟩, ?_, ⟨B, [], hB, rfl⟩, .entry, rfl⟩, rfl, rfl⟩
      · intro r d hd
        dsimp only at hd
        rw [Array.getElem?_replicate] at hd
        split at hd
        · cases hd
          exact .inl rfl
        · cases hd
      · -- slots stand in the entry only
        intro r t hr
        obtain ⟨C, hC, hrC⟩ := List.mem_flatMap.mp hr
        have hCid := hwf.shaped.block?_id hC
        by_cases hid : C.id = g.entry
        · rw [hid, hB] at hCid
          cases hCid
          exact .inl hrC
        · cases hwf.shaped.isAlloca_outside_entry hCid hid hrC

/-- Executing an instruction. -/
theorem meets_stepInstruction (hL : L.Suits m) {f : Frame} {γ : Grading} (hf : f.Typed L I γ) {i : Instruction} {rest : List Instruction}
    (hp : f.pending = i :: rest) (hcallers : Awaits L I result callers f.dest f.function.ret) :
    Meets (m.stepInstruction { f with pending := rest } i callers) memory (AfterStep (Running L I result) (Finished L result))
      L.Stops := by
  have hi : i ∈ f.function.instructions := hf.mem_instructions (by simp [hp])
  have htypes := hf.graded.types i hi
  by_cases hcall : i.callee? = none
  · by_cases halloca : i.isAlloca = true
    · -- a new cell; everything else stays typed with it
      cases i with
      | alloca dest type =>
        have hmem' : (L.grow [type]).Holds (memory.push .undef) := hmem.push type
        have hhas : (Datum.pointer memory.size).Has (L.grow [type]) (γ.register dest) := by
          rw [show γ.register dest = .address type from htypes]
          exact ⟨memory.size, rfl, by simp [Layout.grow, hmem.size], hmem.fixed_size⟩
        refine meets_bind_of_ok rfl ?_
        refine ((hf.grow [type]).meets_receive hp fun r hr => ?_).bind fun f' memory' ⟨hmemory, hf', hd, hfun⟩ => ?_
        · cases hr
          exact hhas
        · subst hmemory
          exact meets_pure ⟨[type], hmem', ⟨γ, hf'⟩, by rw [hd, hfun]; exact hcallers.grow [type]⟩
      | _ => cases halloca
    · have halloca : i.isAlloca = false := by simpa using halloca
      have hphi : ∀ dest type incoming, i = .phi dest type incoming → ∃ p ∈ incoming.map (·.2), f.previous = some p := by
        rintro dest type incoming rfl
        exact hf.phi_edge hp
      have hstep : m.stepInstruction { f with pending := rest } i callers = (do
          let result ← ({ f with pending := rest } : Frame).compute m i
          return .running ((← ({ f with pending := rest } : Frame).receive i.dest? result) :: callers)) := by
        cases i with
        | call dest callee args ret => cases hcall
        | _ => rfl
      rw [hstep]
      refine ((hf.ready hp halloca).meets_compute hm hL hmem hi halloca hcall hphi).bind fun d memory' ⟨hmem', hd⟩ => ?_
      refine (hf.meets_receive hp hd).bind fun f' memory'' ⟨hmemory, hf', hdest, hfun⟩ => ?_
      subst hmemory
      exact meets_pure (running_of_typed hmem' ⟨⟨γ, hf'⟩, by rwa [hdest, hfun]⟩)
  · cases i with
    | call dest callee args ret =>
      obtain ⟨⟨grades, hsig, hargs⟩, hdest, -⟩ := htypes
      refine ((hf.ready hp rfl).meets_args hm hL hargs fun v => Function.mem_operands hi).bind fun values memory' ⟨hmemory, hvalues⟩ => ?_
      subst hmemory
      rw [hf.graded.interface] at hsig
      refine (meets_enter hmem hm hsig hvalues dest (callers.length + 1)).bind
        fun g memory' ⟨hmemory, hg, hgdest, hret⟩ => ?_
      subst hmemory
      refine meets_pure (running_of_typed hmem ⟨hg, ⟨γ, hf.behind_call hp rfl, fun r hr => ?_⟩, hcallers⟩)
      rw [hgdest] at hr
      exact ⟨hf.fills.size ▸ hf.graded.shaped.sized _ hi r hr, hret ▸ hdest r hr⟩
    | _ => exact absurd rfl hcall

omit hm in
/-- Executing the end of a block. -/
theorem meets_stepTerminator {f : Frame} {γ : Grading} (hf : f.Typed L I γ) (hp : f.pending = [])
    (hcallers : Awaits L I result callers f.dest f.function.ret) :
    Meets (m.stepTerminator f callers) memory (AfterStep (Running L I result) (Finished L result)) L.Stops := by
  obtain ⟨B, before, hB, -⟩ := hf.block
  have hmemB := List.mem_of_getElem? hB
  obtain ⟨t, ht⟩ := Option.isSome_iff_exists.mp (hf.graded.shaped.ended B hmemB)
  have hends := hf.graded.ends B hmemB t ht
  have hop : ∀ v ∈ t.operands, v ∈ f.function.operands := fun v hv =>
    Function.mem_operands_end hB ht hv
  have hsucc : ∀ s ∈ t.successors, s ∈ B.successors := fun s hs => by rwa [Block.successors, ht]
  have hjump : ∀ s ∈ t.successors, Meets (do return .running ((← f.jump s) :: callers)) memory
      (AfterStep (Running L I result) (Finished L result)) L.Stops := by
    intro s hs
    refine (hf.meets_jump hp hB (hsucc s hs)).bind fun f' memory' hf' => ?_
    obtain ⟨rfl, hf', hd, hfun⟩ := hf'
    exact meets_pure (running_of_typed hmem ⟨⟨γ, hf'⟩, by rwa [hd, hfun]⟩)
  simp only [Module.stepTerminator, hB, ht]
  cases t with
  | ret value =>
    cases value with
    | none => exact meets_deliver hmem hcallers hends
    | some v =>
      obtain ⟨d, hd, hfits⟩ := hf.fills.operand hf.graded.shaped (hop v (by simp [Terminator.operands])) hends.2
      exact meets_bind_of_ok hd (meets_deliver hmem hcallers hfits)
  | jump target => exact hjump target (by simp [Terminator.successors])
  | branch cond yes no =>
    obtain ⟨d, hd, hfits⟩ := hf.fills.operand hf.graded.shaped (hop cond (by simp [Terminator.operands])) hends
    refine meets_bind_of_ok hd ?_
    have hstop : L.Stops (.undefined f.function.name) memory := hmem.stops trivial
    cases d with
    | constant c =>
      cases hc : c.int? with
      | none =>
        simp only [Frame.taken, hc]
        exact meets_throw hstop
      | some n =>
        simp only [Frame.taken, hc]
        refine meets_bind_of_ok rfl (hjump _ ?_)
        split <;> simp [Terminator.successors]
    | _ => exact meets_throw hstop
  | unreachable => exact absurd ht (hf.graded.no_dead_end _ B hf.reached hB)

/-- A step keeps memory and frames typed. -/
theorem step_typed (hL : L.Suits m) (hstack : StackTyped L I result stack) :
    Meets (m.step stack) memory (AfterStep (Running L I result) (Finished L result)) L.Stops := by
  cases stack with
  | nil => exact hstack.elim
  | cons f callers =>
    obtain ⟨⟨γ, hf⟩, hcallers⟩ := hstack
    cases hp : f.pending with
    | nil =>
      simp only [Module.step, hp]
      exact meets_stepTerminator hmem hf hp hcallers
    | cons i rest =>
      simp only [Module.step, hp]
      exact meets_stepInstruction hmem hm hL hf hp hcallers

end

/-- A step keeps a running program typed in the layout in which it started. -/
theorem running_step (hm : m.WellFormed I) (hL : L.Suits m) (h : Running L I result stack memory) :
    Meets (m.step stack) memory (AfterStep (Running L I result) (Finished L result)) L.Stops := by
  obtain ⟨more, hmem, hstack⟩ := h
  refine (step_typed hmem hm (hL.grow more) hstack).mono (fun p memory' hp => ?_) fun crash memory' hcrash => ?_
  · cases p with
    | running stack' =>
      obtain ⟨more', hmem', hstack'⟩ := hp
      exact ⟨more ++ more', by simpa using hmem', by simpa using hstack'⟩
    | finished d =>
      obtain ⟨hd, more', hmem'⟩ := hp
      exact ⟨hd, more ++ more', by simpa using hmem'⟩
  · obtain ⟨hordinary, more', hmem'⟩ := hcrash
    exact ⟨hordinary, more ++ more', by simpa using hmem'⟩

end Stacks

end Ember
