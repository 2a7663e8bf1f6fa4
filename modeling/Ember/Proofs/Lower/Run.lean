import Ember.Lower.Unit
import Ember.Proofs.IR.Draft
import Ember.Proofs.Steps

/-!
# Runs of lowering steps

A step that succeeds is taken apart: a sequence into its parts, a choice into the branch that was taken, a step of the builder into the
change it makes to the function that is being built. Steps that only fail never succeed, so checks are read off as facts.
-/

namespace Ember

namespace IR

/-- Puts a function in the place of the one that is being built. -/
def Builder.update (b : Builder) (f : Function) : Builder :=
  { b with module := b.module.modifyFunction (b.function.getD 0) fun _ => f }

/-- The place where a builder goes on: the function, the block and its content. -/
structure Builder.Cursor (b : Builder) (f : Function) (c : BlockId) (C : Block) : Prop where
  function : b.currentFunction? = some f
  block : b.block = some c
  here : f.block? c = some C

namespace Builder

variable {b : Builder} {f f' f'' : Function} {c : BlockId} {C C' : Block}

theorem currentFunction?_eq_some : b.currentFunction? = some f ↔ ∃ i, b.function = some i ∧ b.module.functions[i]? = some f := by
  simp [currentFunction?, Option.bind_eq_some_iff]

theorem currentFunction?_update (h : b.currentFunction? = some f) : (b.update f').currentFunction? = some f' := by
  obtain ⟨i, hi, hf⟩ := currentFunction?_eq_some.mp h
  refine currentFunction?_eq_some.mpr ⟨i, hi, ?_⟩
  simp [update, Module.modifyFunction, hi, hf]

theorem update_update : (b.update f).update f' = b.update f' := by
  simp only [update, Module.modifyFunction, List.modify_modify_eq]
  rfl

theorem update_self (h : b.currentFunction? = some f) : b.update f = b := by
  obtain ⟨i, hi, hf⟩ := currentFunction?_eq_some.mp h
  have : b.module.functions.modify i (fun _ => f) = b.module.functions := by
    refine List.ext_getElem? fun j => ?_
    rw [List.getElem?_modify]
    by_cases hj : i = j
    · simp [← hj, hf]
    · simp [hj]
  simp only [update, Module.modifyFunction, hi, Option.getD_some, this]
  rw [← hi]

theorem Cursor.update (h : b.Cursor f c C) (hC : f'.block? c = some C') : (b.update f').Cursor f' c C' :=
  ⟨currentFunction?_update h.function, h.block, hC⟩

theorem Cursor.isTerminated (h : b.Cursor f c C) : b.isTerminated = C.terminator.isSome := by
  simp [Builder.isTerminated, currentBlock?, h.function, h.block, h.here, Block.isTerminated]

end Builder

namespace Build

variable {α : Type} {b b' : Builder} {f : Function} {c : BlockId} {C : Block} {v : Value}

section

variable (hf : b.currentFunction? = some f)
include hf

theorem function_eq : ∃ n, b.function = some n ∧ function b = .ok (n, f) b := by
  obtain ⟨n, hn, hg⟩ := Builder.currentFunction?_eq_some.mp hf
  refine ⟨n, hn, ?_⟩
  simp only [function, bind_of_ok (get_apply b), hn, hg]
  rfl

omit hf in
theorem block_eq (hc : b.Cursor f c C) : ∃ n, b.function = some n ∧ block b = .ok (n, f, c, C) b := by
  obtain ⟨n, hn, hok⟩ := function_eq hc.function
  refine ⟨n, hn, ?_⟩
  simp only [block, bind_of_ok (get_apply b), hc.block, bind_of_ok hok, hc.here]
  rfl

omit hf in
theorem replace_eq {n : Nat} (hn : b.function = some n) (f : Function) : replace n f b = .ok () (b.update f) := by
  simp only [replace, modify, modifyGet_apply, Builder.update, hn, Option.getD_some]

theorem register_eq (type : Ty) : register type b = .ok f.registers.size (b.update (f.addRegister type).2) := by
  obtain ⟨n, hn, hok⟩ := function_eq hf
  rw [register, bind_of_ok hok]
  exact bind_of_ok (replace_eq hn _)

theorem appendBlock_eq (label : String) : appendBlock label b = .ok f.blocks.length (b.update (f.addBlock label).2) := by
  obtain ⟨n, hn, hok⟩ := function_eq hf
  rw [appendBlock, bind_of_ok hok]
  exact bind_of_ok (replace_eq hn _)

theorem slot_eq {E : Block} (hE : f.block? f.entry = some E) (type : Ty) :
    slot type b = .ok (.register f.registers.size) (b.update (f.addSlot type)) := by
  have hg : (b.update (f.addRegister .ptr).2).currentFunction? = some (f.addRegister .ptr).2 := Builder.currentFunction?_update hf
  obtain ⟨n, hn, hok⟩ := function_eq hg
  have hE' : (f.addRegister .ptr).2.block? (f.addRegister .ptr).2.entry = some E := hE
  simp only [slot, bind_of_ok (register_eq hf .ptr), bind_of_ok hok, hE', bind_of_ok (replace_eq hn _), Builder.update_update]
  rfl

end

section

variable (hc : b.Cursor f c C) (hopen : C.terminator = none)
include hc hopen

omit hc in
theorem isTerminated_eq_false : C.isTerminated = false := by
  rw [Block.isTerminated, hopen]
  rfl

theorem emit_eq (i : Instruction) : emit i b = .ok () (b.update (f.emit c i)) := by
  obtain ⟨n, hn, hok⟩ := block_eq hc
  simp only [emit, bind_of_ok hok, isTerminated_eq_false hopen, Bool.false_eq_true, if_false]
  exact replace_eq hn _

theorem terminate_eq (t : Terminator) : terminate t b = .ok () (b.update (f.terminate c t)) := by
  obtain ⟨n, hn, hok⟩ := block_eq hc
  simp only [terminate, bind_of_ok hok, isTerminated_eq_false hopen, Bool.false_eq_true, if_false]
  exact replace_eq hn _

theorem define_eq (type : Ty) (i : Register → Instruction) : define type i b =
    .ok (.register f.registers.size) (b.update ((f.addRegister type).2.emit c (i f.registers.size))) := by
  have hc' : (b.update (f.addRegister type).2).Cursor (f.addRegister type).2 c C := hc.update hc.here
  rw [define, bind_of_ok (register_eq hc.function type), bind_of_ok (emit_eq hc' hopen _), Builder.update_update]
  rfl

end

theorem run_isTerminated {t : Bool} : isTerminated b = .ok t b' ↔ b.isTerminated = t ∧ b = b' := by
  simp [isTerminated, run_map, run_get, and_comm]

end Build

end IR

namespace Lowering

variable {α : Type} {w w' : Workspace} {a : α}

theorem run_build {step : IR.Build α} : build step w = .ok a w' ↔ ∃ b, step w.builder = .ok a b ∧ w' = { w with builder := b } := by
  simp only [build, EStateM.run]
  cases step w.builder with
  | ok x b => simp [eq_comm]
  | error e b => simp

theorem run_breach {cause : Breach} : (breach cause : Lowering α) w = .ok a w' ↔ False :=
  run_throw

theorem run_types {t : TypeTable} : types w = .ok t w' ↔ w.types = t ∧ w = w' := by
  simp [types, run_map, run_get, and_comm]

/-- The table has every type that it is asked for. -/
def HasTypes (w : Workspace) (ids : List TypeId) : Prop :=
  ∀ id ∈ ids, id < w.types.entries.length

theorem run_typesWith {ids : List TypeId} {t : TypeTable} : typesWith ids w = .ok t w' ↔ HasTypes w ids ∧ w.types = t ∧ w = w' := by
  simp only [typesWith, run_bind, run_types, ↓existsAndEq, and_true, true_and, HasTypes]
  cases hf : ids.find? (w.types.entries.length ≤ ·) with
  | some id =>
    have hid := List.mem_of_find?_eq_some hf
    have hle : w.types.entries.length ≤ id := by simpa using List.find?_some hf
    simp only [run_breach, false_iff, not_and]
    exact fun h => absurd (h id hid) (Nat.not_lt_of_le hle)
  | none =>
    have hlt : ∀ id ∈ ids, id < w.types.entries.length := by simpa using hf
    simp only [run_pure, and_iff_right (show ∀ id ∈ ids, id < w.types.entries.length from hlt)]

variable {id : TypeId} {name : String} {u : Unit} {loc : Loc}

theorem run_nameOf : nameOf id w = .ok name w' ↔ HasTypes w [id] ∧ w.types.nameOf id = name ∧ w = w' := by
  simp only [nameOf, bind_pure_comp, run_map, run_typesWith]
  grind

theorem run_irOf {ty : IR.Ty} : irOf id w = .ok ty w' ↔ HasTypes w [id] ∧ w.types.ir id = ty ∧ w = w' := by
  simp only [irOf, bind_pure_comp, run_map, run_typesWith]
  grind

theorem run_kindOf {k : TypeKind} : kindOf id w = .ok k w' ↔ HasTypes w [id] ∧ w.types.kind id = k ∧ w = w' := by
  simp only [kindOf, bind_pure_comp, run_map, run_typesWith]
  grind

theorem run_onTypes {step : TypeTable → α × TypeTable} :
    onTypes step w = .ok a w' ↔ (step w.types).1 = a ∧ { w with types := (step w.types).2 } = w' := by
  simp [onTypes, modifyGet_apply]

theorem run_tryTypes {step : TypeTable → Except Fault (α × TypeTable)} :
    tryTypes step w = .ok a w' ↔ ∃ t, step w.types = .ok (a, t) ∧ { w with types := t } = w' := by
  simp only [tryTypes, run_bind, run_get, ↓existsAndEq, and_true]
  cases step w.types with
  | error f => simp [run_throw]
  | ok r => simp [run_map, run_modify, Prod.ext_iff, and_comm, and_assoc]

theorem run_immutableOf {id' : TypeId} : immutableOf id w = .ok id' w' ↔
      HasTypes w [id] ∧ (w.types.immutableOf id).1 = id' ∧ { w with types := (w.types.immutableOf id).2 } = w' := by
  simp only [immutableOf, run_bind, run_typesWith, run_onTypes]
  grind

theorem run_mutableOf {id' : TypeId} : mutableOf id w = .ok id' w' ↔
      HasTypes w [id] ∧ (w.types.mutableOf id).1 = id' ∧ { w with types := (w.types.mutableOf id).2 } = w' := by
  simp only [mutableOf, run_bind, run_typesWith, run_onTypes]
  grind

theorem run_resolve {written : TypeRef} :
    resolve written w = .ok id w' ↔ ∃ t, w.types.resolve written = .ok (id, t) ∧ { w with types := t } = w' :=
  run_tryTypes

theorem run_bindSymbol {symbol : Symbol} :
    bind symbol w = .ok u w' ↔ ∃ scopes, w.scopes.bind symbol = .ok scopes ∧ { w with scopes } = w' := by
  simp only [bind, run_bind, run_get, ↓existsAndEq, and_true]
  cases w.scopes.bind symbol with
  | error f => simp [run_throw]
  | ok scopes => simp [run_modify]

theorem run_lookup? {s : Option Symbol} : lookup? name w = .ok s w' ↔ w.scopes.find? name = s ∧ w = w' := by
  simp [lookup?, run_map, run_get, and_comm]

theorem run_lookup {x : Operand} : lookup name loc w = .ok x w' ↔ ∃ s, w.scopes.find? name = some s ∧ s.operand = x ∧ w = w' := by
  simp only [lookup, run_bind, run_lookup?, ↓existsAndEq, and_true]
  cases w.scopes.find? name with
  | none => simp [run_throw]
  | some s => simp [run_pure]

end Lowering

end Ember
