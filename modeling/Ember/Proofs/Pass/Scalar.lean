import Ember.Pass.Catalog
import Ember.Proofs.IR.Bits
import Ember.Proofs.Machine.Fuel
import Ember.Proofs.Pass.Replacement

/-!
# Folding and simplifying single instructions

An operation on constants may become a copy of its result anywhere, without a trace in any run (`Machine.call_folded`): whether it is
folded or not, it is folded to the same instruction, and a module in which everything is folded takes every step that the module takes. An
operation on integers that needs no computing gives the operand, or the constant, that stands for it (`Frame.value?_simplified`).
-/

namespace Ember

open IR

/-! ## Folding -/

namespace IR

/-- The instruction, folded if it can be. -/
def Instruction.folded (i : Instruction) : Instruction :=
  (i.folded?.bind fun c => i.copying (.constant c)).getD i

/-- The function with everything folded. -/
def Function.folded (F : Function) : Function :=
  F.foldConstants.2

namespace Module

/-- The module with everything folded. -/
def folded (m : Module) : Module :=
  { m with functions := m.functions.map Function.folded }

/-- The module with the instruction at one place folded: the `k`-th one in block `b` of the function number `index`. -/
def foldedAt (m : Module) (index : Nat) (b : BlockId) (k : Nat) : Module :=
  { m with functions := m.functions.modify index (·.modifyBlock b fun B => { B with instructions := B.instructions.modify k .folded }) }

end Module

theorem Instruction.folded_cases (i : Instruction) :
    i.folded = i ∨ ∃ dest c, i.dest? = some dest ∧ i.folded? = some c ∧ i.folded = .assign dest (.constant c) := by
  unfold folded
  cases h : i.folded?.bind fun c => i.copying (.constant c) with
  | none => exact .inl rfl
  | some i' =>
    obtain ⟨c, hc, hcopy⟩ := Option.bind_eq_some_iff.mp h
    obtain ⟨dest, hdest, rfl⟩ := Option.map_eq_some_iff.mp hcopy
    exact .inr ⟨dest, c, hdest, hc, rfl⟩

/-- What is folded already stays as it is. -/
theorem Instruction.folded_folded (i : Instruction) : i.folded.folded = i.folded := by
  rcases i.folded_cases with h | ⟨dest, c, -, -, h⟩
  · rw [h, h]
  · rw [h]
    rfl

theorem map_modify_eq {α β : Type} {g : α → β} {change : α → α} (h : ∀ a, g (change a) = g a) (l : List α) (k : Nat) :
    (l.modify k change).map g = l.map g := by
  refine List.ext_getElem? fun j => ?_
  rw [List.getElem?_map, List.getElem?_map, List.getElem?_modify]
  cases l[j]? with
  | none => rfl
  | some a => by_cases hj : k = j <;> simp [hj, h]

/-- Folded or not, an instruction is folded to the same. -/
theorem Module.folded_foldedAt (m : Module) (index : Nat) (b : BlockId) (k : Nat) : (m.foldedAt index b k).folded = m.folded := by
  refine congrArg (fun functions => { m with functions }) (map_modify_eq (fun F => ?_) _ index)
  refine congrArg (fun blocks => { F with blocks }) (map_modify_eq (fun B => ?_) _ b)
  exact congrArg (fun instructions => { B with instructions }) (map_modify_eq Instruction.folded_folded _ k)

end IR

namespace Frame

/-- The frame in the function with everything folded. -/
def folded (f : Frame) : Frame :=
  { f with function := f.function.folded, pending := f.pending.map Instruction.folded }

/-- What the frame does, with everything folded. -/
def Act.folded : Act → Act
  | .goes next => .goes next.folded
  | .calls callee waiting => .calls callee.folded waiting.folded
  | .returns d => .returns d

variable (m : Module) (f : Frame)

theorem enterBlock_folded (previous : Option BlockId) (id : BlockId) :
    f.folded.enterBlock previous id = Frame.folded <$> f.enterBlock previous id := by
  have hblock : f.folded.function.block? id = (f.function.block? id).map (·.mapInstructions Instruction.folded) :=
    List.getElem?_map
  unfold enterBlock
  rw [hblock]
  cases f.function.block? id <;> rfl

theorem receive_folded (dest : Option Register) (d : Datum) : f.folded.receive dest d = Frame.folded <$> f.receive dest d := by
  cases dest with
  | none => rfl
  | some r =>
    simp only [receive, Frame.set, apply_ite (Frame.folded <$> ·)]
    rfl

theorem compute_folded (i : Instruction) : f.folded.compute m.folded i.folded = f.compute m i := by
  have hsame : f.folded.compute m.folded i = f.compute m i := by cases i <;> rfl
  rcases i.folded_cases with h | ⟨dest, c, -, hc, h⟩
  · rw [h, hsame]
  · rw [h]
    unfold Instruction.folded? at hc
    split at hc <;> first | cases hc | simp only [compute, Frame.constant, Frame.operand, pure_bind, hc, resultOr]

theorem enter_folded (name : String) (args : List Datum) (dest : Option Register) (depth : Nat) :
    m.folded.enter name args dest depth = Frame.folded <$> m.enter name args dest depth := by
  have hfind : m.folded.function? name = (m.function? name).map Function.folded := List.find?_map ..
  unfold Module.enter
  rw [hfind]
  cases m.function? name with
  | none => rfl
  | some F =>
    have hdeclared : F.folded.isDeclaration = F.isDeclaration := List.isEmpty_map
    have hparams : F.folded.params = F.params := rfl
    simp only [Option.map_some, hdeclared, hparams]
    split
    · rfl
    · split
      · rfl
      · split
        · rfl
        · exact enterBlock_folded { function := F, args, registers := _, block := F.entry, previous := none, pending := [], dest } none F.entry

theorem finishBlock_folded (B : Block) : f.folded.finishBlock m.folded B = Act.folded <$> f.finishBlock m B := by
  have hoperand : f.folded.operand m.folded = f.operand m := rfl
  have htaken : f.folded.taken = f.taken := rfl
  have hjump : ∀ id, f.folded.jump id = Frame.folded <$> f.jump id := f.enterBlock_folded (some f.block)
  unfold finishBlock
  cases B.terminator with
  | none => rfl
  | some t =>
    cases t with
    | ret value => cases value <;> simp only [hoperand, map_eq_pure_bind, bind_assoc, pure_bind, Act.folded]
    | unreachable => rfl
    | _ => simp only [hoperand, htaken, hjump, map_eq_pure_bind, bind_assoc, pure_bind, Act.folded]

theorem execute_folded (depth : Nat) (i : Instruction) : f.folded.execute m.folded depth i.folded = Act.folded <$> f.execute m depth i := by
  by_cases hi : i.callee? = none
  · have hlike : i.folded.callee? = none ∧ i.folded.dest? = i.dest? := by
      rcases i.folded_cases with h | ⟨dest, c, hdest, -, h⟩
      · rw [h]
        exact ⟨hi, rfl⟩
      · rw [h, hdest]
        exact ⟨rfl, rfl⟩
    simp only [execute_eq hi, execute_eq hlike.1, hlike.2, compute_folded, receive_folded, map_eq_pure_bind, bind_assoc, pure_bind, Act.folded]
  · cases i with
    | call dest callee args ret =>
      have hoperand : f.folded.operand m.folded = f.operand m := rfl
      have hcall : (Instruction.call dest callee args ret).folded = .call dest callee args ret := rfl
      simp only [hcall, execute, hoperand, enter_folded, map_eq_pure_bind, bind_assoc, pure_bind, Act.folded]
    | _ => exact absurd rfl hi

theorem act_folded (depth : Nat) : f.folded.act m.folded depth = Act.folded <$> f.act m depth := by
  cases hp : f.pending with
  | nil =>
    have hp' : f.folded.pending = [] := by simp [Frame.folded, hp]
    have hblock : f.folded.function.block? f.folded.block = (f.function.block? f.block).map (·.mapInstructions Instruction.folded) :=
      List.getElem?_map
    simp only [act, hp, hp', hblock]
    cases f.function.block? f.block with
    | none => rfl
    | some B => exact f.finishBlock_folded m B
  | cons i rest =>
    have hp' : f.folded.pending = i.folded :: rest.map Instruction.folded := by simp [Frame.folded, hp]
    have hbehind : f.folded.behind (rest.map Instruction.folded) = (f.behind rest).folded := rfl
    simp only [act, hp, hp', hbehind]
    exact (f.behind rest).execute_folded m depth i

/-- What comes after a step, with everything folded. -/
def progressFolded : Module.Progress → Module.Progress
  | .running stack => .running (stack.map folded)
  | .finished d => .finished d

theorem take_folded (dest : Option Register) (callers : List Frame) (action : Act) :
    action.folded.take dest (callers.map Frame.folded) = progressFolded <$> action.take dest callers := by
  cases action with
  | returns d =>
    cases callers with
    | nil => rfl
    | cons caller rest =>
      simp only [Act.folded, Act.take, Module.deliver, List.map_cons, receive_folded, map_eq_pure_bind, bind_assoc, pure_bind,
        progressFolded]
  | _ => rfl

end Frame

namespace IR.Module

variable (m : Module)

theorem step_folded (stack : List Frame) : m.folded.step (stack.map Frame.folded) = Frame.progressFolded <$> m.step stack := by
  cases stack with
  | nil => rfl
  | cons f callers =>
    have hdest : f.folded.dest = f.dest := rfl
    simp only [List.map_cons, Frame.step_eq_act, List.length_map, hdest, f.act_folded, map_eq_pure_bind, bind_assoc, pure_bind,
      Frame.take_folded]

theorem run_folded (fuel : Nat) (stack : List Frame) (memory : Memory) :
    m.folded.run fuel (stack.map Frame.folded) memory = m.run fuel stack memory := by
  induction fuel generalizing stack memory with
  | zero => rfl
  | succ fuel ih =>
    rw [run, run, step_folded, map_eq_pure_bind]
    cases hstep : m.step stack memory with
    | error crash memory' => rw [bind_of_error hstep]
    | ok progress memory' =>
      rw [bind_of_ok hstep]
      cases progress with
      | running stack' => exact ih stack' memory'
      | finished d => rfl

end IR.Module

/-- Every call comes to the same outcome with either module, with the same memory and as much fuel left. -/
def Machine.Agree (m m' : Module) : Prop :=
  ∀ memory fuel name args, let before := call ⟨m, memory, fuel⟩ name args
    let after := call ⟨m', memory, fuel⟩ name args
    after.1 = before.1 ∧ after.2.memory = before.2.memory ∧ after.2.fuel = before.2.fuel

theorem Machine.agree_folded (m : Module) : Agree m m.folded := by
  intro memory fuel name args
  simp only [call, Frame.enter_folded, map_eq_pure_bind]
  cases henter : m.enter name args none 0 memory with
  | error crash memory' => simp only [bind_of_error henter, and_self]
  | ok f memory' =>
    have hrun : m.folded.run fuel [f.folded] memory' = m.run fuel [f] memory' := m.run_folded fuel [f] memory'
    simp only [bind_of_ok henter]
    exact hrun ▸ ⟨rfl, rfl, rfl⟩

/-! ## Simplifying -/

namespace IR

open Ty

variable {t : Ty} {a b : Int64} {c : Constant} {op : BinaryOp}

/-- A word that is wrapped is the signed value of its number. -/
theorem signed_low (ht : t ∈ words) (ha : t.wrap a = a) : Constant.signed (t.low a) = .int a := by
  rw [Constant.signed, ← toInt_wrap ht, Int64.ofInt_toInt, ha]

theorem low_small (ht : t ∈ words) : t.low 0 = 0 ∧ t.low 1 = 1 := by
  simp only [words, List.mem_cons, List.not_mem_nil, or_false] at ht
  rcases ht with rfl | rfl | rfl | rfl <;> decide

/-- What an operation gives on numbers. -/
theorem BinaryOp.onBits?_of_result? (ht : t ∈ words) (h : op.result? t (.int a) (.int b) = some c) :
    ∃ x, op.onBits? (t.low a) (t.low b) = some x ∧ c = .signed x := by
  rw [result?_eq ht] at h
  split at h
  · cases h
  · obtain ⟨x, hx, rfl⟩ := Option.map_eq_some_iff.mp h
    exact ⟨x, hx, rfl⟩

theorem BinaryOp.onBits?_comm (h : op.isCommutative = true) {w : Nat} (x y : BitVec w) : op.onBits? x y = op.onBits? y x := by
  cases op <;> simp only [isCommutative, Bool.false_eq_true] at h <;>
    simp only [onBits?, BitVec.add_comm, BitVec.mul_comm, BitVec.and_comm, BitVec.or_comm, BitVec.xor_comm]

variable {left right v : Value} {n : Int64} {x : BitVec t.bits}

/-- A constant on the right that decides the result: this is the left operand, or zero. -/
theorem BinaryOp.simplifiedBy?_bits (ht : t ∈ words) (h : op.simplifiedBy? left n = some v)
    (hx : op.onBits? (t.low a) (t.low n) = some x) : (v = left ∧ x = t.low a) ∨ v = .int 0 ∧ x = 0 := by
  obtain ⟨hzero, hone⟩ := low_small ht
  cases op <;> simp only [simplifiedBy?, reduceCtorEq] at h <;> split_ifs at h <;> cases h <;>
    simp_all [onBits?]

/-- An operation on a number and itself that needs no computing: the result is the number, or zero. -/
theorem BinaryOp.onItself?_bits (h : op.onItself? left = some v) (hx : op.onBits? (t.low a) (t.low a) = some x) :
    (v = left ∧ x = t.low a) ∨ v = .int 0 ∧ x = 0 := by
  cases op <;> simp only [onItself?, reduceCtorEq] at h <;> cases h <;> simp_all [onBits?]

end IR

open Ty

namespace Frame

variable {m : Module} {f : Frame} {t : Ty} {left right v : Value} {a b : Int64} {c : Constant} {op : BinaryOp}

theorem value?_of_int? {n : Int64} (hn : v.int? = some n) (hv : f.value? m v = some (.constant (.int b))) : b = n := by
  cases v with
  | constant k =>
    cases hv
    cases hn
    rfl
  | _ => cases hn

/-- What stands for an operation that needs no computing has the value that the operation gives. -/
theorem value?_simplified (ht : t ∈ words) (h : op.simplified? left right = some v)
    (hleft : f.value? m left = some (.constant (.int a))) (hright : f.value? m right = some (.constant (.int b)))
    (ha : t.wrap a = a) (hb : t.wrap b = b) (hc : op.result? t (.int a) (.int b) = some c) : f.value? m v = some (.constant c) := by
  obtain ⟨l, r, hlr, hv⟩ := BinaryOp.exists_arranged h
  obtain ⟨x, hx, rfl⟩ := BinaryOp.onBits?_of_result? ht hc
  -- If the operands change places, so do their numbers.
  obtain ⟨n, n', hl, hr, hn, hx⟩ : ∃ n n', f.value? m l = some (.constant (.int n)) ∧ f.value? m r = some (.constant (.int n')) ∧
      t.wrap n = n ∧ op.onBits? (t.low n) (t.low n') = some x := by
    rcases hlr with ⟨rfl, rfl⟩ | ⟨hcomm, rfl, rfl⟩
    · exact ⟨a, b, hleft, hright, ha, hx⟩
    · exact ⟨b, a, hright, hleft, hb, BinaryOp.onBits?_comm hcomm _ _ ▸ hx⟩
  have hcases : (v = l ∧ x = t.low n) ∨ v = .int 0 ∧ x = 0 := by
    rcases hv with ⟨k, hk, hby⟩ | ⟨rfl, hself⟩
    · rw [value?_of_int? hk hr] at hx
      exact BinaryOp.simplifiedBy?_bits ht hby hx
    · cases hl.symm.trans hr
      exact BinaryOp.onItself?_bits hself hx
  rcases hcases with ⟨rfl, rfl⟩ | ⟨rfl, rfl⟩
  · rw [hl, signed_low ht hn]
  · simp [value?, Value.int, Constant.signed]

end Frame

/-- Scalar rewriting is sound, instruction by instruction. Wherever in a module one instruction is folded, every call comes to the same
outcome, with the same memory and as much fuel left, and so it does behind the pass that folds all of them. And if the operands of an
operation of an integer type, for which a simpler value is found, are integers of this type, then the value is what the operation gives,
if that gives anything. -/
theorem scalar_rewriting_sound :
    (∀ m index b k, Machine.Agree m (m.foldedAt index b k)) ∧ (∀ m level, Machine.Agree m (Pass.constantFolding.onModule level m).2.1) ∧
    ∀ (m : Module) (f : Frame) (dest : Register) (op : BinaryOp) (t : Ty) (left right v : Value) (a b : Int64) (c : Constant)
      (memory : Memory), (Instruction.binary dest op t left right).simplified? = some v →
      f.operand m left memory = .ok (.constant (.int a)) memory → f.operand m right memory = .ok (.constant (.int b)) memory →
      t.wrap a = a → t.wrap b = b → op.result? t (.int a) (.int b) = some c → f.operand m v memory = .ok (.constant c) memory := by
  refine ⟨fun m index b k memory fuel name args => ?_, fun m level => ?_, ?_⟩
  · have hbefore := Machine.agree_folded m memory fuel name args
    have hafter := Machine.agree_folded (m.foldedAt index b k) memory fuel name args
    rw [m.folded_foldedAt] at hafter
    exact ⟨hafter.1.symm.trans hbefore.1, hafter.2.1.symm.trans hbefore.2.1, hafter.2.2.symm.trans hbefore.2.2⟩
  · have hpass : (Pass.constantFolding.onModule level m).2.1 = m.folded := by
      refine congrArg (fun functions => { m with functions }) ?_
      rw [List.map_map]
      refine List.map_congr_left fun F _ => ?_
      show (Pass.constantFolding.onDefined F).2 = F.folded
      unfold Pass.onDefined
      split
      next hdeclared =>
        have hblocks : F.blocks = [] := List.isEmpty_iff.mp hdeclared
        cases F
        simp_all [Function.folded, Function.foldConstants, Function.replaceBy, Function.mapBlocks]
      next => rfl
    exact hpass ▸ Machine.agree_folded m
  · intro m f dest op t left right v a b c memory hv hleft hright ha hb hc
    simp only [Instruction.simplified?] at hv
    split at hv
    next ht =>
      simp only [Bool.and_eq_true, decide_eq_true_eq] at ht
      exact Frame.operand_of_value (Frame.value?_simplified (Ty.mem_words ht.1 ht.2) hv (Frame.operand_eq_ok.mp hleft).1
        (Frame.operand_eq_ok.mp hright).1 ha hb hc)
    next => cases hv

end Ember
