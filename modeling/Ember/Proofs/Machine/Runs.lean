import Ember.Pass.Inlining
import Ember.Proofs.IR.Path
import Ember.Proofs.Machine.Outcome

/-!
# Runs of single frames

A run that comes to a result is put together from runs of single frames. A frame moves (`Moves`), calls another function and goes on
with what that returns, or returns itself (`Returns`); `Runs m depth f memory d memory'` says that a frame with `depth` frames below it
comes to return `d`. The steps of the machine, which work on a whole stack of frames, lead to a result exactly if the first frame runs to
it (`Machine.call_of_calls`, `Machine.calls_of_call`).
-/

namespace Ember

open IR

variable {memory memory' : Memory} {name : String} {args : List Datum}

namespace Frame

/-! ## What a frame does -/

/-- The value of an operand, if it has one. -/
def value? (m : Module) (f : Frame) : Value → Option Datum
  | .register r => f.registers[r]?
  | .constant c => some (.constant c)
  | .parameter i => f.args[i]?
  | .global name => (m.globalCell? name).map .pointer
  | .function _ => none
  | .undef _ => some .undef
  | .unit => some .unit

/-- The values of operands. -/
abbrev Supplies (m : Module) (f : Frame) (args : List Value) (values : List Datum) : Prop :=
  List.Forall₂ (fun v d => f.value? m v = some d) args values

/-- The frame computes a result by an instruction that is no call, and leaves this memory. -/
inductive Computes (m : Module) (f : Frame) (memory : Memory) : Instruction → Datum → Memory → Prop where
  | assign {dest : Register} {value : Value} {d : Datum} : f.value? m value = some d → Computes m f memory (.assign dest value) d memory
  | binary {dest : Register} {op : BinaryOp} {type : Ty} {left right : Value} {a b c : Constant} :
      f.value? m left = some (.constant a) → f.value? m right = some (.constant b) → op.result? type a b = some c →
      Computes m f memory (.binary dest op type left right) (.constant c) memory
  | compare {dest : Register} {pred : Predicate} {type : Ty} {left right : Value} {a b c : Constant} :
      f.value? m left = some (.constant a) → f.value? m right = some (.constant b) → pred.result? type a b = some c →
      Computes m f memory (.compare dest pred type left right) (.constant c) memory
  | unary {dest : Register} {op : UnaryOp} {type : Ty} {value : Value} {a c : Constant} :
      f.value? m value = some (.constant a) → op.result? type a = some c →
      Computes m f memory (.unary dest op type value) (.constant c) memory
  | cast {dest : Register} {op : CastOp} {value : Value} {source target : Ty} {a c : Constant} :
      f.value? m value = some (.constant a) → op.result? a source target = some c →
      Computes m f memory (.cast dest op value source target) (.constant c) memory
  | alloca {dest : Register} {type : Ty} : Computes m f memory (.alloca dest type) (.pointer memory.size) (memory.push .undef)
  | load {dest : Register} {pointer : Value} {type : Ty} {cell : Nat} {d : Datum} :
      f.value? m pointer = some (.pointer cell) → memory[cell]? = some d → Computes m f memory (.load dest pointer type) d memory
  | store {pointer value : Value} {type : Ty} {cell : Nat} {d : Datum} :
      f.value? m pointer = some (.pointer cell) → cell < memory.size → f.value? m value = some d →
      Computes m f memory (.store pointer value type) .unit (memory.setIfInBounds cell d)
  | phi {dest : Register} {type : Ty} {incoming : List (Value × BlockId)} {source : BlockId} {edge : Value × BlockId} {d : Datum} :
      f.previous = some source → (incoming.find? fun (_, block) => block = source) = some edge → f.value? m edge.1 = some d →
      Computes m f memory (.phi dest type incoming) d memory

/-- The frame behind an instruction. -/
def behind (f : Frame) (rest : List Instruction) : Frame :=
  { f with pending := rest }

/-- The frame with a result in its place, if it goes anywhere. -/
def put (f : Frame) : Option Register → Datum → Frame
  | some r, d => { f with registers := f.registers.setIfInBounds r d }
  | none, _ => f

/-- The frame at the start of a block. -/
def goto (f : Frame) (id : BlockId) (B : Block) : Frame :=
  { f with block := id, previous := some f.block, pending := B.instructions }

/-- There is a place for a result. -/
def Takes (f : Frame) (dest : Option Register) : Prop :=
  ∀ r, dest = some r → r < f.registers.size

/-- The end of the current block leads to another. -/
def Leads (m : Module) (f : Frame) : Option Terminator → BlockId → Prop
  | some (.jump target), id => id = target
  | some (.branch cond yes no), id =>
    ∃ c n, f.value? m cond = some (.constant c) ∧ c.int? = some n ∧ id = if n != 0 then yes else no
  | _, _ => False

/-- The end of the current block returns. -/
def Yields (m : Module) (f : Frame) : Option Terminator → Datum → Prop
  | some (.ret (some value)), d => f.value? m value = some d
  | some (.ret none), d => d = .unit
  | _, _ => False

/-- The frame moves on by itself: it executes an instruction that is no call, or goes to another block. -/
inductive Moves (m : Module) (f : Frame) (memory : Memory) : Frame → Memory → Prop where
  | compute {i : Instruction} {rest : List Instruction} {d : Datum} {memory' : Memory} :
      f.pending = i :: rest → f.Computes m memory i d memory' → f.Takes i.dest? →
      Moves m f memory ((f.behind rest).put i.dest? d) memory'
  | goto {id : BlockId} {A B : Block} :
      f.pending = [] → f.function.block? f.block = some A → f.Leads m A.terminator id → f.function.block? id = some B →
      Moves m f memory (f.goto id B) memory

/-- The frame is at its end and returns a value. -/
def Returns (m : Module) (f : Frame) (d : Datum) : Prop :=
  f.pending = [] ∧ ∃ A, f.function.block? f.block = some A ∧ f.Yields m A.terminator d

end Frame

namespace IR

/-- The frame with which a function starts. -/
def Function.frame (F : Function) (args : List Datum) (dest : Option Register) (B : Block) : Frame where
  function := F
  args := args
  registers := Array.replicate F.registers.size .undef
  block := F.entry
  previous := none
  pending := B.instructions
  dest := dest

/-- A function of the module can be entered with these arguments. -/
def Module.Enters (m : Module) (name : String) (args : List Datum) (dest : Option Register) (g : Frame) : Prop :=
  ∃ F B, m.function? name = some F ∧ args.length = F.params.length ∧ F.block? F.entry = some B ∧ g = F.frame args dest B

end IR

/-- A frame with `depth` frames below it comes to return a value. -/
inductive Runs (m : Module) : (depth : Nat) → Frame → Memory → Datum → Memory → Prop where
  | ret {depth : Nat} {f : Frame} {memory : Memory} {d : Datum} : f.Returns m d → Runs m depth f memory d memory
  | move {depth : Nat} {f f' : Frame} {memory memory' memory'' : Memory} {d : Datum} :
      f.Moves m memory f' memory' → Runs m depth f' memory' d memory'' → Runs m depth f memory d memory''
  | call {depth : Nat} {f g : Frame} {memory memory' memory'' : Memory} {d result : Datum} {dest : Option Register} {callee : String}
      {args : List Value} {ret : Ty} {rest : List Instruction} {values : List Datum} :
      f.pending = .call dest callee args ret :: rest → List.Forall₂ (fun v d => f.value? m v = some d) args values →
      m.Enters callee values dest g → depth + 1 < depthLimit → Runs m (depth + 1) g memory d memory' → f.Takes dest →
      Runs m depth ((f.behind rest).put dest d) memory' result memory'' → Runs m depth f memory result memory''

/-! ## The steps of the machine -/

namespace Frame

variable {m : Module} {f f' : Frame} {memory memory' : Memory} {d : Datum}

@[simp] theorem value?_behind (f : Frame) (rest : List Instruction) (v : Value) : (f.behind rest).value? m v = f.value? m v := by
  cases v <;> rfl

/-- What is computed depends on the values of the operands, and for a phi on the block from which control came. -/
theorem Computes.congr {m' : Module} {i : Instruction} (h : f.Computes m memory i d memory')
    (hvalue : ∀ v, f'.value? m' v = f.value? m v) (hprevious : i.isPhi = true → f'.previous = f.previous) :
    f'.Computes m' memory i d memory' := by
  cases h with
  | assign hd => exact .assign (hvalue _ ▸ hd)
  | binary ha hb hc => exact .binary (hvalue _ ▸ ha) (hvalue _ ▸ hb) hc
  | compare ha hb hc => exact .compare (hvalue _ ▸ ha) (hvalue _ ▸ hb) hc
  | unary ha hc => exact .unary (hvalue _ ▸ ha) hc
  | cast ha hc => exact .cast (hvalue _ ▸ ha) hc
  | alloca => exact .alloca
  | load hp hd => exact .load (hvalue _ ▸ hp) hd
  | store hp hlt hd => exact .store (hvalue _ ▸ hp) hlt (hvalue _ ▸ hd)
  | phi hp he hd => exact .phi (hprevious rfl ▸ hp) he (hvalue _ ▸ hd)

@[simp] theorem function_put (f : Frame) (dest : Option Register) (d : Datum) : (f.put dest d).function = f.function := by
  cases dest <;> rfl

@[simp] theorem dest_put (f : Frame) (dest : Option Register) (d : Datum) : (f.put dest d).dest = f.dest := by
  cases dest <;> rfl

theorem Moves.dest_eq (h : f.Moves m memory f' memory') : f'.dest = f.dest := by
  cases h with
  | compute => exact dest_put _ _ _
  | goto => rfl

theorem run_malformed {α : Type} {cause : Malformation} {a : α} : (malformed cause : Execution α) memory = .ok a memory' ↔ False :=
  run_throw

theorem run_return {α : Type} {a b : α} : (pure a : Execution α) memory = .ok b memory' ↔ b = a ∧ memory' = memory := by
  rw [run_pure, eq_comm, @eq_comm _ memory]

variable {v : Value}

theorem operand_eq_ok : f.operand m v memory = .ok d memory' ↔ f.value? m v = some d ∧ memory' = memory := by
  cases v with
  | register r => cases h : f.registers[r]? <;> simp [operand, value?, h, run_return, run_malformed, @eq_comm _ d]
  | parameter i => cases h : f.args[i]? <;> simp [operand, value?, h, run_return, run_malformed, @eq_comm _ d]
  | global name => cases h : m.globalCell? name <;> simp [operand, value?, h, run_return, run_malformed, @eq_comm _ d]
  | _ => simp [operand, value?, run_return, run_malformed, @eq_comm _ d]

theorem operand_of_value (h : f.value? m v = some d) : f.operand m v memory = .ok d memory :=
  operand_eq_ok.mpr ⟨h, rfl⟩

theorem constant_eq_ok {c : Constant} : f.constant m v memory = .ok c memory' ↔ f.value? m v = some (.constant c) ∧ memory' = memory := by
  simp only [Frame.constant, run_bind, operand_eq_ok]
  constructor
  · rintro ⟨d, _, ⟨hd, rfl⟩, h⟩
    cases d <;> cases h
    exact ⟨hd, rfl⟩
  · rintro ⟨hd, rfl⟩
    exact ⟨_, _, ⟨hd, rfl⟩, rfl⟩

theorem address_eq_ok {cell : Nat} :
    f.address m v memory = .ok cell memory' ↔ f.value? m v = some (.pointer cell) ∧ cell < memory.size ∧ memory' = memory := by
  simp only [Frame.address, run_bind, operand_eq_ok]
  constructor
  · rintro ⟨d, _, ⟨hd, rfl⟩, h⟩
    cases d with
    | pointer cell' =>
      obtain ⟨_, _, ⟨⟩, h⟩ := run_bind.mp h
      split at h <;> cases h
      exact ⟨hd, ‹_›, rfl⟩
    | _ => cases h
  · rintro ⟨hd, hlt, rfl⟩
    exact ⟨_, _, ⟨hd, rfl⟩, run_bind.mpr ⟨_, _, rfl, by rw [if_pos hlt]; rfl⟩⟩

theorem resultOr_eq_ok {crash : Crash} {result : Option Constant} :
    resultOr crash result memory = .ok d memory' ↔ (∃ c, result = some c ∧ d = .constant c) ∧ memory' = memory := by
  cases result <;> simp [resultOr, run_return, run_throw]

theorem receive_eq_ok {dest : Option Register} :
    f.receive dest d memory = .ok f' memory' ↔ f.Takes dest ∧ f' = f.put dest d ∧ memory' = memory := by
  cases dest with
  | none => simp [receive, Takes, put, run_return]
  | some r =>
    have htakes : f.Takes (some r) ↔ r < f.registers.size := by simp [Takes]
    by_cases hr : r < f.registers.size <;> simp [receive, Frame.set, put, htakes, hr, run_return, run_malformed]

/-- What an instruction that is no call computes. -/
theorem compute_eq_ok {i : Instruction} (hi : i.callee? = none) :
    f.compute m i memory = .ok d memory' ↔ f.Computes m memory i d memory' := by
  constructor
  · intro h
    cases i with
    | assign =>
      obtain ⟨hd, rfl⟩ := operand_eq_ok.mp h
      exact .assign hd
    | binary | compare =>
      simp only [compute, run_bind, constant_eq_ok, resultOr_eq_ok] at h
      obtain ⟨a, _, ⟨ha, rfl⟩, b, _, ⟨hb, rfl⟩, ⟨c, hc, rfl⟩, rfl⟩ := h
      first | exact .binary ha hb hc | exact .compare ha hb hc
    | unary | cast =>
      simp only [compute, run_bind, constant_eq_ok, resultOr_eq_ok] at h
      obtain ⟨a, _, ⟨ha, rfl⟩, ⟨c, hc, rfl⟩, rfl⟩ := h
      first | exact .unary ha hc | exact .cast ha hc
    | call => cases hi
    | alloca =>
      cases h
      exact .alloca
    | load =>
      simp only [compute, run_bind, address_eq_ok, run_get, run_pure] at h
      obtain ⟨cell, _, ⟨hp, hlt, rfl⟩, _, _, ⟨rfl, rfl⟩, rfl, rfl⟩ := h
      exact .load hp (by simp [hlt])
    | store =>
      simp only [compute, run_bind, address_eq_ok, operand_eq_ok, run_modify, run_pure] at h
      obtain ⟨cell, _, ⟨hp, hlt, rfl⟩, d, _, ⟨hd, rfl⟩, _, _, rfl, rfl, rfl⟩ := h
      exact .store hp hlt hd
    | phi _ _ incoming =>
      cases hp : f.previous with
      | none => simp [compute, hp, run_malformed] at h
      | some source =>
        cases he : incoming.find? fun (_, block) => block = source with
        | none => simp [compute, hp, he, run_malformed] at h
        | some edge =>
          simp only [compute, hp, he, operand_eq_ok] at h
          obtain ⟨hd, rfl⟩ := h
          exact .phi hp he hd
  · intro h
    cases h with
    | assign hd => exact operand_of_value hd
    | binary ha hb hc | compare ha hb hc =>
      simp only [compute, run_bind, constant_eq_ok, resultOr_eq_ok]
      exact ⟨_, _, ⟨ha, rfl⟩, _, _, ⟨hb, rfl⟩, ⟨_, hc, rfl⟩, rfl⟩
    | unary ha hc | cast ha hc =>
      simp only [compute, run_bind, constant_eq_ok, resultOr_eq_ok]
      exact ⟨_, _, ⟨ha, rfl⟩, ⟨_, hc, rfl⟩, rfl⟩
    | alloca => rfl
    | load hp hd =>
      simp only [compute, run_bind, address_eq_ok]
      exact ⟨_, _, ⟨hp, (Array.getElem?_eq_some_iff.mp hd).1, rfl⟩, _, _, rfl, by rw [hd]; rfl⟩
    | store hp hlt hd =>
      simp only [compute, run_bind, address_eq_ok, operand_eq_ok]
      exact ⟨_, _, ⟨hp, hlt, rfl⟩, _, _, ⟨hd, rfl⟩, _, _, rfl, rfl⟩
    | phi hp he hd =>
      simp only [compute, hp, he]
      exact operand_of_value hd

theorem jump_eq_ok {id : BlockId} :
    f.jump id memory = .ok f' memory' ↔ ∃ B, f.function.block? id = some B ∧ f' = f.goto id B ∧ memory' = memory := by
  cases h : f.function.block? id <;> simp [jump, enterBlock, goto, h, run_return, run_malformed]

theorem taken_eq_ok {taken : Bool} :
    f.taken d memory = .ok taken memory' ↔ (∃ c n, d = .constant c ∧ c.int? = some n ∧ taken = (n != 0)) ∧ memory' = memory := by
  cases d with
  | constant c => cases h : c.int? <;> simp [Frame.taken, h, run_return, run_throw]
  | _ => simp [Frame.taken, run_throw]

theorem mapM_operand_eq_ok {args : List Value} {values : List Datum} : args.mapM (f.operand m) memory = .ok values memory' ↔
      f.Supplies m args values ∧ memory' = memory := by
  induction args generalizing values memory memory' with
  | nil => simp [run_return]
  | cons v args ih =>
    simp only [List.mapM_cons, run_bind, operand_eq_ok, ih, run_pure, List.forall₂_cons_left_iff]
    grind

end Frame

theorem IR.Module.enter_eq_ok {m : Module} {dest : Option Register} {depth : Nat} {g : Frame} :
    m.enter name args dest depth memory = .ok g memory' ↔ m.Enters name args dest g ∧ depth < depthLimit ∧ memory' = memory := by
  cases hF : m.function? name with
  | none => simp [Module.enter, Module.Enters, hF, run_throw]
  | some F =>
    have hbody : F.isDeclaration = true → F.block? F.entry = none := by
      intro h
      simp_all [Function.isDeclaration, Function.block?]
    simp only [Module.enter, Module.Enters, hF, Option.some.injEq, Frame.enterBlock]
    by_cases hdecl : F.isDeclaration = true
    · simp [hdecl, hbody hdecl, run_bind, run_throw]
    · by_cases hlen : args.length = F.params.length
      · by_cases hdepth : depthLimit ≤ depth
        · simp [hdecl, hlen, hdepth, Nat.not_lt.mpr hdepth, run_bind, run_throw]
        · cases hB : F.block? F.entry <;>
            simp [hdecl, hlen, hdepth, Nat.not_le.mp hdepth, hB, Function.frame, Frame.run_return, Frame.run_malformed]
      · simp [hdecl, hlen, run_bind, Frame.run_malformed]

namespace Frame

variable {m : Module} {f : Frame} {memory memory' : Memory}

/-- What a frame does in a step. -/
inductive Act where
  | goes (next : Frame)
  | calls (callee waiting : Frame)
  | returns (d : Datum)

/-- What a frame does at the end of its current block. -/
def finishBlock (m : Module) (f : Frame) (B : Block) : Execution Act :=
  match B.terminator with
  | some (.ret (some value)) => do return .returns (← f.operand m value)
  | some (.ret none) => return .returns .unit
  | some (.jump target) => do return .goes (← f.jump target)
  | some (.branch cond yes no) => do
    let taken ← f.taken (← f.operand m cond)
    return .goes (← f.jump (if taken then yes else no))
  | some .unreachable => throw (.unreachable f.function.name)
  | none => malformed (.openBlock B.label f.function.name)

/-- What a frame does with an instruction, `depth` frames being below it. -/
def execute (m : Module) (depth : Nat) (f : Frame) : Instruction → Execution Act
  | .call dest callee args _ => do
    let values ← args.mapM (f.operand m)
    return .calls (← m.enter callee values dest (depth + 1)) f
  | i => do
    let result ← f.compute m i
    return .goes (← f.receive i.dest? result)

/-- What a frame does in a step, `depth` frames being below it. -/
def act (m : Module) (depth : Nat) (f : Frame) : Execution Act :=
  match f.pending with
  | [] =>
    match f.function.block? f.block with
    | none => malformed (.missingBlock f.block)
    | some B => f.finishBlock m B
  | i :: rest => (f.behind rest).execute m depth i

theorem execute_eq {i : Instruction} (hi : i.callee? = none) (depth : Nat) : f.execute m depth i = (do
    let result ← f.compute m i return .goes (← f.receive i.dest? result)) := by
  cases i with
  | call dest callee args ret => cases hi
  | _ => rfl

/-- What a frame does at the end of its current block: it goes to another, or returns. -/
theorem finishBlock_eq_ok {B : Block} {action : Act} : f.finishBlock m B memory = .ok action memory' ↔ memory' = memory ∧
    ((∃ id C, f.Leads m B.terminator id ∧ f.function.block? id = some C ∧ action = .goes (f.goto id C)) ∨
      ∃ d, f.Yields m B.terminator d ∧ action = .returns d) := by
  unfold finishBlock
  match B.terminator with
  | none => simp [Leads, Yields, run_malformed]
  | some .unreachable => simp [Leads, Yields, run_throw]
  | some (.ret none) => simp [Leads, Yields, run_return, and_comm]
  | some (.ret (some value)) =>
    simp only [run_bind, operand_eq_ok, run_return, Leads, Yields]
    grind
  | some (.jump target) =>
    simp only [run_bind, jump_eq_ok, run_return, Leads, Yields]
    grind
  | some (.branch cond yes no) =>
    simp only [run_bind, operand_eq_ok, taken_eq_ok, jump_eq_ok, run_return, Leads, Yields]
    constructor
    · rintro ⟨_, _, ⟨hd, rfl⟩, _, _, ⟨⟨c, n, rfl, hn, rfl⟩, rfl⟩, _, _, ⟨C, hC, rfl, rfl⟩, rfl, rfl⟩
      exact ⟨rfl, .inl ⟨_, C, ⟨c, n, hd, hn, rfl⟩, hC, rfl⟩⟩
    · rintro ⟨rfl, ⟨_, C, ⟨c, n, hd, hn, rfl⟩, hC, rfl⟩ | ⟨_, hfalse, -⟩⟩
      · exact ⟨_, _, ⟨hd, rfl⟩, _, _, ⟨⟨c, n, rfl, hn, rfl⟩, rfl⟩, _, _, ⟨C, hC, rfl, rfl⟩, rfl, rfl⟩
      · exact hfalse.elim

/-- What is left of a frame that has acted. -/
def Act.own : Act → Option Frame
  | .goes next => some next
  | .calls _ waiting => some waiting
  | .returns _ => none

/-- What becomes of the frames when the topmost one has acted. -/
def Act.take (dest : Option Register) (callers : List Frame) : Act → Execution Module.Progress
  | .goes next => return .running (next :: callers)
  | .calls callee waiting => return .running (callee :: waiting :: callers)
  | .returns d => Module.deliver d dest callers

/-- A step is what the topmost frame does, and that depends on the number of the frames below it only. -/
theorem step_eq_act (m : Module) (f : Frame) (callers : List Frame) :
    m.step (f :: callers) = f.act m callers.length >>= Act.take f.dest callers := by
  cases hp : f.pending with
  | nil =>
    simp only [Module.step, Module.stepTerminator, act, hp]
    cases f.function.block? f.block with
    | none => rfl
    | some B =>
      simp only [finishBlock]
      cases B.terminator with
      | none => rfl
      | some t =>
        cases t with
        | ret value =>
          cases value with
          | none => rfl
          | some v => simp only [bind_assoc, pure_bind, Act.take]
        | jump target | branch cond yes no => simp only [bind_assoc, pure_bind, Act.take]
        | unreachable => rfl
  | cons i rest =>
    simp only [Module.step, act, hp]
    cases i <;> simp only [Module.stepInstruction, execute, behind, bind_assoc, pure_bind, Act.take]

/-- What a frame can do in a step: it moves, calls a function, or returns. -/
theorem act_cases {depth : Nat} {action : Act} (h : f.act m depth memory = .ok action memory') : match action with
    | .goes next => f.Moves m memory next memory'
    | .calls g waiting => ∃ dest callee args ret rest values, f.pending = .call dest callee args ret :: rest ∧
        f.Supplies m args values ∧ m.Enters callee values dest g ∧ depth + 1 < depthLimit ∧
        memory' = memory ∧ waiting = f.behind rest
    | .returns d => f.Returns m d ∧ memory' = memory := by
  cases hp : f.pending with
  | nil =>
    simp only [act, hp] at h
    cases hA : f.function.block? f.block with
    | none =>
      rw [hA] at h
      cases h
    | some A =>
      simp only [hA, finishBlock_eq_ok] at h
      obtain ⟨rfl, ⟨id, C, hleads, hC, rfl⟩ | ⟨d, hd, rfl⟩⟩ := h
      · exact .goto hp hA hleads hC
      · exact ⟨⟨hp, A, hA, hd⟩, rfl⟩
  | cons i rest =>
    simp only [act, hp] at h
    cases hi : i.callee? with
    | none =>
      simp only [execute_eq hi, run_bind, compute_eq_ok hi, receive_eq_ok, run_return] at h
      obtain ⟨d, _, hd, _, _, ⟨htakes, rfl, rfl⟩, rfl, rfl⟩ := h
      exact .compute hp (hd.congr (fun v => (f.value?_behind rest v).symm) fun _ => rfl) htakes
    | some name =>
      cases i with
      | call dest callee args ret =>
        simp only [execute, run_bind, mapM_operand_eq_ok, Module.enter_eq_ok, run_return] at h
        obtain ⟨values, _, ⟨hargs, rfl⟩, g, _, ⟨hg, hdepth, rfl⟩, rfl, rfl⟩ := h
        exact ⟨dest, callee, args, ret, rest, values, rfl, hargs, hg, hdepth, rfl, rfl⟩
      | _ => cases hi

end Frame

namespace IR.Module

variable {m : Module} {f : Frame} {callers : List Frame} {memory memory' : Memory} {d : Datum}

/-- A frame that moves makes a step. -/
theorem step_of_moves {f' : Frame} (h : f.Moves m memory f' memory') :
    m.step (f :: callers) memory = .ok (.running (f' :: callers)) memory' := by
  rw [Frame.step_eq_act]
  refine run_bind.mpr ⟨.goes f', memory', ?_, rfl⟩
  cases h with
  | @compute i rest d _ hp hd htakes =>
    have hi : i.callee? = none := by cases hd <;> rfl
    simp only [Frame.act, hp, Frame.execute_eq hi, run_bind, Frame.compute_eq_ok hi, Frame.receive_eq_ok]
    exact ⟨d, _, hd.congr (f.value?_behind rest) fun _ => rfl, _, _, ⟨htakes, rfl, rfl⟩, rfl⟩
  | goto hp hA hleads hB =>
    simp only [Frame.act, hp, hA]
    exact Frame.finishBlock_eq_ok.mpr ⟨rfl, .inl ⟨_, _, hleads, hB, rfl⟩⟩

/-- A frame that returns gives its result to the frame below. -/
theorem step_of_returns (h : f.Returns m d) : m.step (f :: callers) memory = deliver d f.dest callers memory := by
  obtain ⟨hp, A, hA, hd⟩ := h
  rw [Frame.step_eq_act]
  refine bind_of_ok (a := Frame.Act.returns d) ?_
  simp only [Frame.act, hp, hA]
  exact Frame.finishBlock_eq_ok.mpr ⟨rfl, .inr ⟨d, hd, rfl⟩⟩

/-- A frame that calls a function waits for it. -/
theorem step_of_call {dest : Option Register} {callee : String} {args : List Value} {ret : Ty} {rest : List Instruction}
    {values : List Datum} {g : Frame} (hp : f.pending = .call dest callee args ret :: rest)
    (hargs : f.Supplies m args values) (hg : m.Enters callee values dest g) (hdepth : callers.length + 1 < depthLimit) :
    m.step (f :: callers) memory = .ok (.running (g :: f.behind rest :: callers)) memory := by
  rw [Frame.step_eq_act]
  refine run_bind.mpr ⟨.calls g (f.behind rest), memory, ?_, rfl⟩
  simp only [Frame.act, hp, Frame.execute, run_bind, Frame.mapM_operand_eq_ok, enter_eq_ok]
  exact ⟨values, _, ⟨hargs, rfl⟩, g, _, ⟨hg, hdepth, rfl⟩, rfl⟩

/-- What a step can do: the topmost frame moves, returns, or calls a function. -/
theorem step_cases {p : Progress} (h : m.step (f :: callers) memory = .ok p memory') :
    (∃ f', f.Moves m memory f' memory' ∧ p = .running (f' :: callers)) ∨
    (∃ d, f.Returns m d ∧ deliver d f.dest callers memory = .ok p memory') ∨
    ∃ dest callee args ret rest values g, f.pending = .call dest callee args ret :: rest ∧
      f.Supplies m args values ∧ m.Enters callee values dest g ∧
      callers.length + 1 < depthLimit ∧ memory' = memory ∧ p = .running (g :: f.behind rest :: callers) := by
  rw [Frame.step_eq_act] at h
  obtain ⟨action, middle, hact, htake⟩ := run_bind.mp h
  have hacts := Frame.act_cases hact
  cases action with
  | goes next =>
    cases htake
    exact .inl ⟨next, hacts, rfl⟩
  | calls g waiting =>
    obtain ⟨dest, callee, args, ret, rest, values, hp, hargs, hg, hdepth, rfl, rfl⟩ := hacts
    cases htake
    exact .inr (.inr ⟨dest, callee, args, ret, rest, values, g, hp, hargs, hg, hdepth, rfl, rfl⟩)
  | returns d =>
    obtain ⟨hd, rfl⟩ := hacts
    exact .inr (.inl ⟨d, hd, htake⟩)

/-! ## Runs of the machine -/

/-- Goes on after the topmost frame has returned. -/
def resume (m : Module) (fuel : Nat) (d : Datum) (dest : Option Register) (callers : List Frame) (memory : Memory) :
    Except Crash Datum × Memory × Nat :=
  match callers with
  | [] => (.ok d, memory, fuel)
  | caller :: rest => m.run fuel (caller.put dest d :: rest) memory

theorem run_succ_of_step {fuel : Nat} {stack stack' : List Frame} (h : m.step stack memory = .ok (.running stack') memory') :
    m.run (fuel + 1) stack memory = m.run fuel stack' memory' := by
  rw [run, h]

/-- A frame that is going to return gives way to what comes then. -/
theorem run_of_runs {depth : Nat} (h : Runs m depth f memory d memory') : ∀ callers : List Frame, callers.length = depth →
    (∀ caller ∈ callers.head?, caller.Takes f.dest) →
    ∃ steps, ∀ fuel, m.run (fuel + steps) (f :: callers) memory = m.resume fuel d f.dest callers memory' := by
  induction h with
  | @ret depth f memory d hd =>
    intro callers _ htakes
    refine ⟨1, fun fuel => ?_⟩
    rw [run, step_of_returns hd]
    cases callers with
    | nil => rfl
    | cons caller rest =>
      have hreceive : caller.receive f.dest d memory = .ok (caller.put f.dest d) memory :=
        Frame.receive_eq_ok.mpr ⟨htakes caller rfl, rfl, rfl⟩
      simp only [deliver, Bind.bind, EStateM.bind, hreceive]
      rfl
  | @move depth f f' memory memory' memory'' d hmove _ ih =>
    intro callers hlength htakes
    obtain ⟨steps, hsteps⟩ := ih callers hlength (hmove.dest_eq ▸ htakes)
    refine ⟨steps + 1, fun fuel => ?_⟩
    rw [← Nat.add_assoc, run_succ_of_step (step_of_moves hmove), hsteps, hmove.dest_eq]
  | @call depth f g memory memory' memory'' d result dest callee args ret rest values hp hargs hg hdepth _ htake _ ihcallee ihrest =>
    intro callers hlength htakes
    have hgdest : g.dest = dest := by
      obtain ⟨F, B, -, -, -, rfl⟩ := hg
      rfl
    obtain ⟨stepsCallee, hcallee⟩ := ihcallee (f.behind rest :: callers) (by simp [hlength]) (by
      intro caller hcaller
      cases hcaller
      rwa [hgdest])
    obtain ⟨stepsRest, hrest⟩ := ihrest callers hlength (by simpa [Frame.behind] using htakes)
    refine ⟨stepsRest + stepsCallee + 1, fun fuel => ?_⟩
    rw [← Nat.add_assoc, run_succ_of_step (step_of_call hp hargs hg (hlength ▸ hdepth)), ← Nat.add_assoc, hcallee, resume, hgdest, hrest]
    simp [Frame.behind]

/-- The topmost frame of a run that comes to a result runs to its own, and the rest of the run follows. -/
theorem runs_of_run {fuel : Nat} {result : Datum} {rest : Memory × Nat} (h : m.run fuel (f :: callers) memory = (.ok result, rest)) :
    ∃ d memory' fuel', fuel' < fuel ∧ Runs m callers.length f memory d memory' ∧ (∀ caller ∈ callers.head?, caller.Takes f.dest) ∧
      m.resume fuel' d f.dest callers memory' = (.ok result, rest) := by
  induction fuel using Nat.strongRecOn generalizing f callers memory with
  | ind fuel ih =>
    cases fuel with
    | zero => cases h
    | succ fuel =>
      rw [run] at h
      cases hstep : m.step (f :: callers) memory with
      | error crash memory' =>
        rw [hstep] at h
        cases h
      | ok p memory' =>
        rw [hstep] at h
        rcases step_cases hstep with ⟨f', hmove, rfl⟩ | ⟨d, hd, hdeliver⟩ |
          ⟨dest, callee, args, ret, more, values, g, hp, hargs, hg, hdepth, rfl, rfl⟩
        · obtain ⟨d, memory'', fuel', hlt, hruns, htakes, hrest⟩ := ih fuel (Nat.lt_succ_self _) h
          rw [hmove.dest_eq] at htakes hrest
          exact ⟨d, memory'', fuel', Nat.lt_succ_of_lt hlt, .move hmove hruns, htakes, hrest⟩
        · cases callers with
          | nil =>
            cases hdeliver
            exact ⟨d, memory, fuel, Nat.lt_succ_self _, .ret hd, nofun, h⟩
          | cons caller others =>
            obtain ⟨caller', middle, hcaller, hdone⟩ := run_bind.mp hdeliver
            obtain ⟨htakes, rfl, rfl⟩ := Frame.receive_eq_ok.mp hcaller
            cases hdone
            refine ⟨d, _, fuel, Nat.lt_succ_self _, .ret hd, ?_, h⟩
            intro c hc
            cases hc
            exact htakes
        · have hgdest : g.dest = dest := by
            obtain ⟨F, B, -, -, -, rfl⟩ := hg
            rfl
          obtain ⟨d, memory'', fuel', hlt, hruns, htakes, hresume⟩ := ih fuel (Nat.lt_succ_self _) h
          rw [hgdest] at htakes hresume
          obtain ⟨e, memory₃, fuel₃, hlt₃, hruns₃, htakes₃, hrest⟩ := ih fuel' (Nat.lt_succ_of_lt hlt) hresume
          rw [Frame.dest_put] at htakes₃ hrest
          refine ⟨e, memory₃, fuel₃, by omega, ?_, htakes₃, hrest⟩
          exact .call hp hargs hg hdepth hruns (htakes (f.behind more) rfl) hruns₃

/-- A call of a function from outside comes to a result. -/
def Calls (m : Module) (name : String) (args : List Datum) (memory : Memory) (d : Datum) (memory' : Memory) : Prop :=
  ∃ g, m.Enters name args none g ∧ Runs m 0 g memory d memory'

end IR.Module

/-- With enough fuel, a call that comes to a result does so on the machine. -/
theorem Machine.call_of_calls {m : IR.Module} {d : Datum} (h : m.Calls name args memory d memory') :
    ∃ steps, ∀ fuel, (Machine.mk m memory (fuel + steps)).call name args = (.ok d, ⟨m, memory', fuel⟩) := by
  obtain ⟨g, hg, hruns⟩ := h
  obtain ⟨steps, hsteps⟩ := Module.run_of_runs hruns [] rfl nofun
  refine ⟨steps, fun fuel => ?_⟩
  have henter : m.enter name args none 0 memory = .ok g memory := Module.enter_eq_ok.mpr ⟨hg, by decide, rfl⟩
  simp only [Machine.call, henter, hsteps]
  rfl

/-- A call that comes to a result on the machine does so whatever the fuel. -/
theorem Machine.calls_of_call {machine machine' : Machine} {d : Datum} (h : machine.call name args = (.ok d, machine')) :
    machine.module.Calls name args machine.memory d machine'.memory := by
  obtain ⟨m, memory, fuel⟩ := machine
  cases henter : m.enter name args none 0 memory with
  | error crash memory' =>
    simp only [Machine.call, henter] at h
    cases h
  | ok g memory' =>
    obtain ⟨hg, -, rfl⟩ := Module.enter_eq_ok.mp henter
    simp only [Machine.call, henter] at h
    cases hrun : m.run fuel [g] memory' with
    | mk result rest =>
      rw [hrun] at h
      cases h
      obtain ⟨e, memory'', fuel', -, hruns, -, hresume⟩ := Module.runs_of_run hrun
      cases hresume
      exact ⟨g, hg, hruns⟩

end Ember
