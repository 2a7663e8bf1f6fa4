import Ember.Pass.Simplification
import Ember.Proofs.IR.Arithmetic
import Ember.Proofs.Pass.Recast

/-!
# Folding and simplifying

Constant folding and algebraic simplification put a copy in the place of an instruction whose result is known. The copied value is a
constant or an operand of the instruction, of the type of its destination, so that the function stays well formed.
-/

namespace Ember.IR

variable {op : BinaryOp}

/-- A rule that puts copies in the place of typed instructions: of operands, or of values that are no registers, at the type of
the destination. -/
def CopyRule (rule : Instruction → Option Instruction) : Prop :=
  ∀ (γ : Grading) (i i' : Instruction), γ.Types i → rule i = some i' →
    ∃ dest value type, i' = .assign dest value ∧ i.dest? = some dest ∧ i.isPhi = false ∧ i.isAlloca = false ∧
      (value ∈ i.operands ∨ value.register? = none) ∧ γ.register dest = .datum type ∧ γ.Has value (.datum type)

/-- Putting copies in the place of instructions keeps a function well formed. -/
theorem Function.WellFormed.replaceBy {I : Interface} {f : Function} {rule : Instruction → Option Instruction}
    (hf : f.WellFormed I) (hrule : CopyRule rule) : (f.replaceBy rule).2.WellFormed I := by
  obtain ⟨γ, -, -, -, hty, -⟩ := hf.typed
  let change (i i' : Instruction) : Prop := i ∈ f.instructions ∧ i' = (rule i).getD i
  -- What comes in the place of an instruction is the instruction itself or a typed copy.
  have cases : ∀ γ : Grading, ∀ i i', γ.Types i → change i i' → i' = i ∨ ∃ dest value type, i' = .assign dest value ∧
      i.dest? = some dest ∧ i.isPhi = false ∧ i.isAlloca = false ∧ (value ∈ i.operands ∨ value.register? = none) ∧
      γ.register dest = .datum type ∧ γ.Has value (.datum type) := by
    rintro γ i i' hi ⟨-, rfl⟩
    cases hr : rule i with
    | none => exact .inl rfl
    | some j => exact .inr (hrule γ i j hi hr)
  have hrecast : f.Recast change (fun _ => False) (f.replaceBy rule).2 := by
    refine ⟨rfl, rfl, rfl, rfl, rfl, ?_, ?_⟩
    · rw [Function.replaceBy, mapBlocks, List.forall₂_map_right_iff, List.forall₂_same]
      intro B hB
      exact ⟨rfl, rfl, rfl, id, Thinned.map fun i hi => ⟨List.mem_flatMap.mpr ⟨B, hB, hi⟩, rfl⟩⟩
    · intro i i' hc
      rcases cases γ i i' (hty i hc.1) hc with rfl | ⟨dest, value, type, rfl, hd, hphi, ha, -⟩
      · exact .refl i'
      · exact .assign value hd hphi ha
  refine hrecast.wellFormed hf (fun _ _ h => h.elim) ?_ ?_ ?_ ?_
  · intro i i' hc
    rcases cases γ i i' (hty i hc.1) hc with rfl | ⟨dest, value, type, rfl, -, -, -, hv, -⟩
    · exact ⟨fun _ h => h, fun _ h => h⟩
    · refine ⟨fun r hr => ?_, fun r hr => absurd hr List.not_mem_nil⟩
      rw [Instruction.operands, List.mem_singleton] at hr
      subst hr
      exact hv.resolve_right (by simp [Value.register?])
  · intro i dest type incoming hc
    rcases cases γ i _ (hty i hc.1) hc with h | ⟨_, _, _, h, -⟩
    · exact h.symm
    · exact absurd h (by simp)
  · intro b B B' hB hB'
    rw [Function.replaceBy, block?_mapBlocks, hB] at hB'
    exact Option.some.inj hB' ▸ rfl
  · intro γ i i' _ hi hc
    rcases cases γ i i' hi hc with rfl | ⟨dest, value, type, rfl, -, -, -, -, hd, hv⟩
    · exact hi
    · exact ⟨type, hd, hv⟩

/-! ## The two rules -/

/-- Folding copies constants of the type of the result. -/
theorem copyRule_folded : CopyRule fun i => i.folded?.bind fun c => i.copying (.constant c) := by
  intro γ i i' hi hr
  simp only [Option.bind_eq_some_iff, Instruction.copying, Option.map_eq_some_iff] at hr
  obtain ⟨c, hc, dest, hd, rfl⟩ := hr
  obtain ⟨type, hreg, hfit, hphi, halloca⟩ : ∃ type, γ.register dest = .datum type ∧ c.Fits type ∧ i.isPhi = false ∧ i.isAlloca = false := by
    unfold Instruction.folded? at hc
    split at hc
    · obtain ⟨hreg, ht, -, -⟩ := hi
      exact ⟨_, Option.some.inj hd ▸ hreg, BinaryOp.result?_fits ht hc, rfl, rfl⟩
    · obtain ⟨hreg, hp, ⟨_, ⟨⟩, ha⟩, ⟨_, ⟨⟩, hb⟩⟩ := hi
      obtain ⟨c', hc', hfit⟩ := Predicate.result?_fits hp ha hb
      cases hc.symm.trans hc'
      exact ⟨_, Option.some.inj hd ▸ hreg, hfit, rfl, rfl⟩
    · obtain ⟨hreg, hop, ⟨_, ⟨⟩, ha⟩⟩ := hi
      obtain ⟨c', hc', hfit⟩ := UnaryOp.result?_fits hop ha
      cases hc.symm.trans hc'
      exact ⟨_, Option.some.inj hd ▸ hreg, hfit, rfl, rfl⟩
    · obtain ⟨hreg, hop, ⟨_, ⟨⟩, ha⟩⟩ := hi
      obtain ⟨c', hc', hfit⟩ := CastOp.result?_fits hop ha
      cases hc.symm.trans hc'
      exact ⟨_, Option.some.inj hd ▸ hreg, hfit, rfl, rfl⟩
    · exact absurd hc (by simp)
  exact ⟨dest, .constant c, type, rfl, hd, hphi, halloca, .inr rfl, hreg, type, rfl, hfit⟩

/-- What a constant on the right simplifies an operation to is the left operand, or zero. -/
theorem BinaryOp.simplifiedBy?_cases {left value : Value} {n : Int64} (h : op.simplifiedBy? left n = some value) :
    value = left ∨ value = .int 0 := by
  unfold BinaryOp.simplifiedBy? at h
  split at h <;> (repeat' split at h) <;> simp_all

/-- How an operation is simplified: its operands, perhaps in the other order, have a constant on the right, or are one register. -/
theorem BinaryOp.exists_arranged {left right value : Value} (h : op.simplified? left right = some value) :
    ∃ l r, (l = left ∧ r = right ∨ op.isCommutative = true ∧ l = right ∧ r = left) ∧
      ((∃ n, r.int? = some n ∧ op.simplifiedBy? l n = some value) ∨ l = r ∧ op.onItself? l = some value) := by
  have harranged : ∃ l r, op.arranged left right = (l, r) ∧ (l = left ∧ r = right ∨ op.isCommutative = true ∧ l = right ∧ r = left) := by
    unfold BinaryOp.arranged
    split
    next hswap =>
      simp only [Bool.and_eq_true] at hswap
      exact ⟨right, left, rfl, .inr ⟨hswap.1.1, rfl, rfl⟩⟩
    next => exact ⟨left, right, rfl, .inl ⟨rfl, rfl⟩⟩
  obtain ⟨l, r, harranged, hlr⟩ := harranged
  refine ⟨l, r, hlr, ?_⟩
  simp only [BinaryOp.simplified?, harranged] at h
  split at h
  next hvalue =>
    cases h
    exact .inl (Option.bind_eq_some_iff.mp hvalue)
  next =>
    split at h
    next =>
      split at h
      next heq => exact .inr ⟨congrArg Value.register heq, h⟩
      next => cases h
    next => cases h

/-- What an operation is simplified to is one of its operands, or zero. -/
theorem BinaryOp.simplified?_cases {left right value : Value} (h : op.simplified? left right = some value) :
    value = left ∨ value = right ∨ value = .int 0 := by
  obtain ⟨l, r, hlr, hvalue⟩ := exists_arranged h
  have hl : value = l ∨ value = .int 0 := by
    rcases hvalue with ⟨n, -, hn⟩ | ⟨-, hself⟩
    · exact simplifiedBy?_cases hn
    · unfold BinaryOp.onItself? at hself
      split at hself <;> simp_all
  rcases hlr with ⟨rfl, -⟩ | ⟨-, rfl, -⟩
  · exact hl.imp_right .inr
  · exact .inr hl

/-- Simplifying copies operands or zero, at an integer type. -/
theorem copyRule_simplified : CopyRule fun i => i.simplified?.bind i.copying := by
  intro γ i i' hi hr
  simp only [Option.bind_eq_some_iff, Instruction.copying, Option.map_eq_some_iff] at hr
  obtain ⟨value, hv, dest, hd, rfl⟩ := hr
  unfold Instruction.simplified? at hv
  split at hv
  · split at hv
    · rename_i dest' op type left right ht
      obtain ⟨hreg, -, hl, hr⟩ := hi
      obtain rfl : dest' = dest := Option.some.inj hd
      refine ⟨dest', value, type, rfl, rfl, rfl, rfl, ?_⟩
      rcases BinaryOp.simplified?_cases hv with rfl | rfl | rfl
      · exact ⟨.inl (by simp [Instruction.operands]), hreg, hl⟩
      · exact ⟨.inl (by simp [Instruction.operands]), hreg, hr⟩
      · simp only [Bool.and_eq_true, decide_eq_true_eq] at ht
        refine ⟨.inr rfl, hreg, type, rfl, ht.1, ht.2, ?_⟩
        unfold Ty.wrap
        split <;> rfl
    · exact absurd hv (by simp)
  · exact absurd hv (by simp)

namespace Function.WellFormed

variable {I : Interface} {f : Function}

/-- Folding constants keeps a function well formed. -/
theorem foldConstants (hf : f.WellFormed I) : f.foldConstants.2.WellFormed I :=
  hf.replaceBy copyRule_folded

/-- Simplifying operations keeps a function well formed. -/
theorem simplify (hf : f.WellFormed I) : f.simplify.2.WellFormed I :=
  hf.replaceBy copyRule_simplified

end Function.WellFormed

end Ember.IR
