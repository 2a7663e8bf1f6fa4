import Ember.Proofs.Typing.Table
import Ember.Proofs.IR.Typing

/-!
# Plans of conversions

What a plan does suits the representations of the two types: a value that only changes its type keeps its representation, and a
conversion is one that the representations have.
-/

namespace Ember

open IR (Ty)

namespace Primitive

variable {p q : Primitive}

theorem isInteger_ir (h : p.isIntegral = true) : p.ir.isInteger = true ∧ p.ir ≠ .bool := by
  cases p <;> simp_all [isIntegral, ir, Ty.isInteger]

theorem isFloat_ir (h : p.isFloating = true) : p.ir.isFloat = true := by
  cases p <;> simp_all [isFloating, ir, Ty.isFloat]

/-- Integers of one width are represented alike. -/
theorem ir_eq_of_isIntegral (hp : p.isIntegral = true) (hq : q.isIntegral = true) (h : p.ir.bits = q.ir.bits) : p.ir = q.ir := by
  cases p <;> simp_all [isIntegral] <;> cases q <;> simp_all [ir, Ty.bits, Ty.bytes]

/-- Floating-point numbers of one width are represented alike. -/
theorem ir_eq_of_isFloating (hp : p.isFloating = true) (hq : q.isFloating = true) (h : p.ir.bits = q.ir.bits) : p.ir = q.ir := by
  cases p <;> simp_all [isFloating] <;> cases q <;> simp_all [ir, Ty.bits, Ty.bytes]

theorem ir_eq_void : p.ir = .void ↔ p = .void := by
  cases p <;> simp [ir]

end Primitive

namespace CastPlan

/-- A plan suits two representations. -/
def Suits (source target : Ty) : CastPlan → Prop
  | .identity | .retag => source = target
  | .convert op => op.Suits source target
  | .notZero => (source.isInteger = true ∧ source ≠ .bool ∨ source.isFloat = true) ∧ target = .bool

end CastPlan

namespace TypeTable

variable {p q : Primitive} {plan : CastPlan}

theorem suits_choice {c : Prop} [Decidable c] {a b : IR.CastOp} {source target : Ty} (ha : a.Suits source target)
    (hb : b.Suits source target) : (if c then a else b).Suits source target := by
  split
  · exact ha
  · exact hb

theorem resizePlan_suits {narrow widen : IR.CastOp} {source target : Ty}
    (hn : narrow.Suits source target) (hw : widen.Suits source target) (he : source.bits = target.bits → source = target) :
    (resizePlan narrow widen source.bits target.bits).Suits source target := by
  unfold resizePlan
  split
  · exact hn
  · split
    · exact hw
    · exact he (by omega)

/-- The conversions between numbers suit them. -/
theorem numberPlan?_suits (h : numberPlan? (.primitive p) (.primitive q) p.ir.bits q.ir.bits = some plan) : plan.Suits p.ir q.ir := by
  unfold numberPlan? at h
  have hbool : ∀ {r : Primitive}, TypeKind.isBool (.primitive r) = true → r = .bool := fun hr => by
    simpa [TypeKind.isBool] using hr
  simp only [TypeKind.isIntegral, TypeKind.isFloating, TypeKind.isUnsigned, Bool.and_eq_true] at h
  split at h
  · rename_i hc
    cases h
    have hp := (Primitive.isInteger_ir hc.1).1
    have hq := (Primitive.isInteger_ir hc.2).1
    exact resizePlan_suits ⟨hp, hq⟩ (suits_choice ⟨hp, hq⟩ ⟨hp, hq⟩) (Primitive.ir_eq_of_isIntegral hc.1 hc.2)
  split at h
  · rename_i hc
    cases h
    exact ⟨.inl (Primitive.isInteger_ir hc.1), by rw [hbool hc.2]; rfl⟩
  split at h
  · rename_i hc
    cases h
    have := And.intro (Primitive.isInteger_ir hc.1).1 (Primitive.isFloat_ir hc.2)
    exact suits_choice this this
  split at h
  · rename_i hc
    cases h
    exact ⟨by rw [hbool hc.1]; rfl, (Primitive.isInteger_ir hc.2).1⟩
  split at h
  · rename_i hc
    cases h
    exact ⟨by rw [hbool hc.1]; rfl, Primitive.isFloat_ir hc.2⟩
  split at h
  · rename_i hc
    cases h
    have := And.intro (Primitive.isFloat_ir hc.1) (Primitive.isInteger_ir hc.2).1
    exact suits_choice this this
  split at h
  · rename_i hc
    cases h
    exact ⟨.inr (Primitive.isFloat_ir hc.1), by rw [hbool hc.2]; rfl⟩
  split at h
  · rename_i hc
    cases h
    have hp := Primitive.isFloat_ir hc.1
    have hq := Primitive.isFloat_ir hc.2
    exact resizePlan_suits ⟨hp, hq⟩ ⟨hp, hq⟩ (Primitive.ir_eq_of_isFloating hc.1 hc.2)
  · cases h

/-- Characters change type only together with types of their width. -/
theorem bitcastPlan?_suits (hc : p.isCharacter = true ∨ q.isCharacter = true) (h : bitcastPlan? p.ir q.ir = some plan) :
    plan.Suits p.ir q.ir := by
  unfold bitcastPlan? at h
  split at h
  · cases h
  · rename_i hbits
    split at h
    · cases h
      assumption
    · rename_i hne
      cases h
      rcases hc with hc | hc
      · cases p <;> simp only [Primitive.isCharacter, Bool.false_eq_true] at hc <;> cases q <;>
          simp_all [Primitive.ir, Ty.hasBits, Ty.bits, Ty.bytes, CastPlan.Suits, IR.CastOp.Suits]
      · cases q <;> simp only [Primitive.isCharacter, Bool.false_eq_true] at hc <;> cases p <;>
          simp_all [Primitive.ir, Ty.hasBits, Ty.bits, Ty.bytes, CastPlan.Suits, IR.CastOp.Suits]

variable {t : TypeTable} {source target : TypeId} {mode : CastMode}

/-- A plan that is not a bitcast suits the representations, and leaves no function a value of another type. -/
theorem Valid.plan?_suits (h : t.Valid) (hs : t.Has source) (ht : t.Has target) (hmode : mode ≠ .bitcast)
    (hp : t.plan? source target mode = some plan) :
    plan.Suits (t.ir source) (t.ir target) ∧ (t.kind source = .function → t.kind target = .function) := by
  unfold TypeTable.plan? at hp
  split at hp
  · rename_i heq
    cases hp
    rw [heq]
    exact ⟨rfl, id⟩
  split at hp
  · rename_i halike
    cases hp
    obtain ⟨hir, hk, -⟩ := h.alike hs ht halike
    exact ⟨hir, fun hf => hk ▸ hf⟩
  cases mode with
  | bitcast => exact absurd rfl hmode
  | implicit => cases hp
  | explicit =>
    have hp : (if (t.kind source).isCharacter || (t.kind target).isCharacter then bitcastPlan? (t.ir source) (t.ir target)
      else numberPlan? (t.kind source) (t.kind target) (t.ir source).bits (t.ir target).bits) = some plan := hp
    rcases h.kind_cases hs with ⟨p, hkp, hip⟩ | ⟨hkp, -, ps, r, hip⟩
    · rcases h.kind_cases ht with ⟨q, hkq, hiq⟩ | ⟨hkq, -, ps, r, hiq⟩
      · rw [hkp, hkq, hip, hiq] at hp
        rw [hip, hiq]
        refine ⟨?_, by simp [hkp]⟩
        split at hp
        · rename_i hc
          exact bitcastPlan?_suits (by simpa [TypeKind.isCharacter] using hc) hp
        · exact numberPlan?_suits hp
      · simp [hkp, hkq, hiq, bitcastPlan?, numberPlan?, Ty.hasBits, TypeKind.isIntegral, TypeKind.isFloating,
          TypeKind.isBool] at hp
    · simp [hkp, hip, bitcastPlan?, numberPlan?, Ty.hasBits, TypeKind.isIntegral, TypeKind.isFloating, TypeKind.isBool] at hp

/-- Only a type itself is left as it is. -/
theorem eq_of_plan?_identity (h : t.plan? source target mode = some .identity) : source = target := by
  have hbits : ∀ a b, bitcastPlan? a b ≠ some .identity := by
    intro a b
    unfold bitcastPlan?
    split
    · simp
    · split <;> simp
  have hresize : ∀ narrow widen a b, resizePlan narrow widen a b ≠ .identity := by
    intro narrow widen a b
    unfold resizePlan
    split
    · simp
    · split <;> simp
  have hnumber : ∀ a b m n, numberPlan? a b m n ≠ some .identity := by
    intro a b m n
    unfold numberPlan?
    repeat' split
    all_goals simp [hresize]
  unfold plan? at h
  split at h
  · assumption
  split at h
  · cases h
  cases mode with
  | implicit => cases h
  | bitcast => exact absurd h (hbits _ _)
  | explicit =>
    have h : (if (t.kind source).isCharacter || (t.kind target).isCharacter then bitcastPlan? (t.ir source) (t.ir target)
      else numberPlan? (t.kind source) (t.kind target) (t.ir source).bits (t.ir target).bits) = some .identity := h
    split at h
    · exact absurd h (hbits _ _)
    · exact absurd h (hnumber _ _ _ _)

/-- A type is accepted where another is expected only if they are alike. -/
theorem alike_of_accepts (h : t.accepts source target = true) : t.alike source target = true := by
  unfold accepts plan? at h
  by_cases heq : source = target
  · simp [heq, alike]
  · cases ha : t.alike source target <;> simp_all

end TypeTable

end Ember
