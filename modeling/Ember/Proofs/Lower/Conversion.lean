import Ember.Proofs.IR.Bits
import Ember.Proofs.Lower.Operation
import Ember.Proofs.Machine.Runs
import Ember.Proofs.Typing.Interning

/-!
# Conversions of constants

What a conversion makes of a constant is said by its plan (`CastPlan.result?`). It is what lowering folds the constant to (`cast_constant`),
and what the instructions compute that it emits for a register (`cast_register`), however the types are written.
-/

namespace Ember

open IR

/-- What a conversion makes of a constant of one representation at another. -/
def CastPlan.result? (source target : Ty) (c : Constant) : CastPlan → Option Constant
  | .identity | .retag => some c
  | .convert op => op.result? c source target
  | .notZero => (Lowering.zeroTest source).1.result? source c (Lowering.zeroTest source).2

/-- Whether a constant is one of a type; an integer need not be wrapped to its width. -/
def IR.Constant.IsOf (c : Constant) (t : Ty) : Prop :=
  (t.isInteger = true → c.int?.isSome = true) ∧ (t.isFloat = true → c.float?.isSome = true)

/-- The constant is the same again after a conversion and one back. -/
def CastPlan.Restores (plan back : CastPlan) (source target : Ty) (c : Constant) : Prop :=
  ∃ d, plan.result? source target c = some d ∧ d.IsOf target ∧ back.result? target source d = some c

/-- Executes instructions one after the other, none of which is a call. -/
def Frame.through (m : Module) (f : Frame) : List Instruction → Execution Frame
  | [] => return f
  | i :: rest => do
    let d ← f.compute m i
    let next ← f.receive i.dest? d
    next.through m rest

/-- After some instructions, a value is the constant, or what is computed on the way crashes. -/
def Frame.Evaluates (m : Module) (f : Frame) (row : List Instruction) (v : Value) (result : Option Constant) : Prop :=
  ∀ memory, match result with
    | some c => (f.through m row >>= (·.operand m v)) memory = .ok (.constant c) memory
    | none => ∃ crash, (f.through m row >>= (·.operand m v)) memory = .error crash memory

theorem Frame.evaluates_single {m : Module} {f : Frame} {i : Instruction} {r : Register} {result : Option Constant} {crash : Crash}
    (hdest : i.dest? = some r) (hr : r < f.registers.size) (hi : f.compute m i = resultOr crash result) :
    f.Evaluates m [i] (.register r) result := by
  intro memory
  simp only [Frame.through, hi, hdest, Frame.receive, Frame.set, if_pos hr, bind_assoc]
  cases result with
  | none => exact ⟨crash, rfl⟩
  | some c =>
    simp only [resultOr, pure_bind, Frame.operand, Array.getElem?_setIfInBounds_self_of_lt hr]
    rfl

namespace TypeTable

variable {t : TypeTable} {source target source' target' : TypeId} {mode : CastMode} {plan plan' : CastPlan}

/-! ## Representations -/

/-- Primitive types are represented as they should be. -/
def Represented (t : TypeTable) : Prop :=
  ∀ e ∈ t.entries, ∀ p, e.shape = .primitive p → e.ir = p.ir

theorem Represented.entry (h : t.Represented) (id : TypeId) : ∀ p, (t.entry id).shape = .primitive p → (t.entry id).ir = p.ir := by
  unfold TypeTable.entry
  cases hid : t.entries[id]? with
  | none =>
    intro p hp
    cases hp
    rfl
  | some e => exact h e (List.mem_of_getElem? hid)

theorem Represented.insert (h : t.Represented) {e : TypeEntry} (he : ∀ p, e.shape = .primitive p → e.ir = p.ir) :
    (t.insert e).2.Represented := by
  unfold TypeTable.insert
  split
  · exact h
  · exact List.forall_mem_append.mpr ⟨h, List.forall_mem_singleton.mpr he⟩

theorem Represented.mutableOf (h : t.Represented) (id : TypeId) : (t.mutableOf id).2.Represented := by
  unfold TypeTable.mutableOf
  dsimp only
  split
  · exact h
  · exact h.insert (h.entry id)

theorem Represented.after (h : t.Represented) (hi : t.Interned) {r : Request} (hr : t.Concerns r) : (t.after r).Represented := by
  refine hi.after_of h hr (fun name target loc q _ _ hq => ?_) (fun s _ => h.insert (by simp)) fun id _ => h.mutableOf id
  simp only [TypeTable.addAlias] at hq
  split at hq
  · cases hq
  · cases hq
    refine ((h.insert ?_).mutableOf _).insert ?_ <;> simp

theorem Reached.represented (h : t.Reached) : t.Represented := by
  induction h with
  | initial debugInfo =>
    intro e he p hp
    obtain ⟨q, -, he⟩ := List.mem_flatMap.mp he
    obtain ⟨mutable, -, rfl⟩ := List.mem_map.mp he
    cases hp
    rfl
  | after hreached hr ih => exact ih.after hreached.invariant.1 hr

/-- A type is represented like the primitive type that it stands for. -/
theorem Reached.ir_of_kind (h : t.Reached) (hs : t.Has source) {p : Primitive} (hk : t.kind source = .primitive p) :
    t.ir source = p.ir := by
  have hshape : (t.entry (t.resolveAlias source)).shape = .primitive p := by
    unfold TypeTable.kind at hk
    cases hshape : (t.entry (t.resolveAlias source)).shape <;> rw [hshape] at hk <;> cases hk
    rfl
  rw [← (h.invariant.1.resolveAlias hs).2.2.1]
  exact h.represented.entry _ p hshape

/-! ## Plans -/

theorem isOf_of_fits {c : Constant} {type : Ty} (h : c.Fits type) : c.IsOf type := by
  refine ⟨fun hi => ?_, fun hf => ?_⟩
  · obtain ⟨n, hn⟩ := h.word hi
    simp [hn]
  · obtain ⟨x, rfl⟩ := h.float hf
    rfl

theorem plan?_of_alike (h : t.alike source target = true) (mode : CastMode) :
    t.plan? source target mode = some .identity ∨ t.plan? source target mode = some .retag := by
  unfold plan?
  split
  · exact .inl rfl
  · exact .inr rfl

theorem ne_of_not_alike (h : t.alike source target = false) : source ≠ target := by
  rintro rfl
  simp [alike] at h

/-- Only numbers are compared with zero. -/
theorem Reached.number_of_notZero (h : t.Reached) (hs : t.Has source) (hplan : t.plan? source target mode = some .notZero) :
    (t.ir source).isInteger = true ∨ (t.ir source).isFloat = true := by
  have hbits : ∀ a b, bitcastPlan? a b ≠ some .notZero := by
    intro a b
    unfold bitcastPlan?
    repeat' split
    all_goals simp
  have hresize : ∀ narrow widen a b, resizePlan narrow widen a b ≠ .notZero := by
    intro narrow widen a b
    unfold resizePlan
    repeat' split
    all_goals simp
  have hnumber : (t.kind source).isIntegral = true ∨ (t.kind source).isFloating = true := by
    unfold plan? at hplan
    split at hplan
    · cases hplan
    split at hplan
    · cases hplan
    cases mode with
    | implicit => cases hplan
    | bitcast => exact absurd hplan (hbits _ _)
    | explicit =>
      dsimp only at hplan
      split at hplan
      · exact absurd hplan (hbits _ _)
      · unfold numberPlan? at hplan
        grind
  cases hk : t.kind source with
  | primitive p =>
    rw [hk] at hnumber
    rw [h.ir_of_kind hs hk]
    exact hnumber.imp (fun hp => (Primitive.isInteger_ir hp).1) Primitive.isFloat_ir
  | _ =>
    rw [hk] at hnumber
    simp [TypeKind.isIntegral, TypeKind.isFloating] at hnumber

theorem Interned.same_of_alike (h : t.Interned) (hs : t.Has source) (ht : t.Has target)
    (halike : t.alike source target = true) : t.core source = t.core target ∧ t.ir source = t.ir target ∧ t.kind source = t.kind target := by
  have hcore : t.core source = t.core target := by simpa [alike] using halike
  exact ⟨hcore, by rw [← (h.core hs).1, hcore, (h.core ht).1], by rw [← (h.core hs).2, hcore, (h.core ht).2]⟩

/-- Types that are alike are converted alike. -/
theorem Interned.plan?_alike (h : t.Interned) (hs : t.Has source) (hs' : t.Has source')
    (ht : t.Has target) (ht' : t.Has target') (hsource : t.alike source source' = true)
    (htarget : t.alike target target' = true) (hplan : t.plan? source target mode = some plan) :
    ∃ plan', t.plan? source' target' mode = some plan' ∧
      ∀ c, plan'.result? (t.ir source') (t.ir target') c = plan.result? (t.ir source) (t.ir target) c := by
  obtain ⟨hcore, hir, hkind⟩ := h.same_of_alike hs hs' hsource
  obtain ⟨hcore', hir', hkind'⟩ := h.same_of_alike ht ht' htarget
  have halike : t.alike source' target' = t.alike source target := by rw [alike, alike, hcore, hcore']
  cases hst : t.alike source target with
  | true =>
    have hkeeps : ∀ c, plan.result? (t.ir source) (t.ir target) c = some c := by
      rcases plan?_of_alike hst mode with hp | hp <;> (cases hplan.symm.trans hp; exact fun _ => rfl)
    rcases plan?_of_alike (halike.trans hst) mode with hp | hp
    · exact ⟨_, hp, fun c => (hkeeps c).symm⟩
    · exact ⟨_, hp, fun c => (hkeeps c).symm⟩
  | false =>
    have hplan' : t.plan? source' target' mode = t.plan? source target mode := by
      simp only [plan?, if_neg (ne_of_not_alike hst), if_neg (ne_of_not_alike (halike.trans hst)), halike, hst, hir, hir', hkind, hkind']
    exact ⟨plan, hplan'.trans hplan, fun c => by rw [hir, hir']⟩

section

variable {p q : Primitive} {c : Constant}

/-- Integers keep their value in types that are at least as wide. -/
theorem restores_wider (hp : p.isIntegral = true) (hq : q.isIntegral = true) (hle : p.ir.bits ≤ q.ir.bits) (hc : c.Fits p.ir)
    (widen : CastOp) : (resizePlan .trunc (if p.isUnsigned then .zext else .sext) p.ir.bits q.ir.bits).Restores
      (resizePlan .trunc widen q.ir.bits p.ir.bits) p.ir q.ir c := by
  obtain ⟨hpi, hpb⟩ := Primitive.isInteger_ir hp
  obtain ⟨hqi, hqb⟩ := Primitive.isInteger_ir hq
  have hpw := Ty.mem_words hpi hpb
  have hqw := Ty.mem_words hqi hqb
  have hinteger : ∀ {ty : Ty} (k : Int64), ty ≠ .bool → ty.integer k = .int (ty.wrap k) := fun k h => if_neg h
  obtain ⟨n, rfl, hn⟩ : ∃ n, c = .int n ∧ p.ir.wrap n = n := by
    cases c with
    | int n => exact ⟨n, rfl, hc.2.2⟩
    | bool b => exact absurd hc hpb
    | float x => exact absurd (Ty.isInteger_eq_false_of_isFloat hc) (by simp [hpi])
    | string s =>
      rw [show p.ir = .ptr from hc] at hpi
      cases hpi
  rcases Nat.lt_or_eq_of_le hle with hlt | heq
  · -- Widened, the integer has the same lowest bits, with its sign or without.
    obtain ⟨k, hk, hlow⟩ : ∃ k, (if p.isUnsigned then CastOp.zext else .sext).result? (.int n) p.ir q.ir = some (.int (q.ir.wrap k)) ∧
        p.ir.low k = p.ir.low n := by
      split
      · exact ⟨_, congrArg some (hinteger _ hqb), Ty.low_of_toNat (Ty.toNat_unsigned hpw n)⟩
      · exact ⟨_, congrArg some (hinteger _ hqb), Ty.low_wrap hpw n⟩
    rw [resizePlan, if_neg (Nat.not_lt.mpr hle), if_pos hlt, resizePlan, if_pos hlt]
    refine ⟨.int (q.ir.wrap k), hk, isOf_of_fits ⟨hqi, hqb, q.ir.wrap_wrap k⟩, ?_⟩
    show some (p.ir.integer (q.ir.wrap (q.ir.wrap k))) = some (.int n)
    rw [hinteger _ hpb, q.ir.wrap_wrap, Ty.wrap_congr hpw ((Ty.low_wrap_of_le hpw hqw hle k).trans hlow), hn]
  · rw [resizePlan, heq, if_neg (Nat.lt_irrefl _), if_neg (Nat.lt_irrefl _), resizePlan, if_neg (Nat.lt_irrefl _), if_neg (Nat.lt_irrefl _)]
    exact ⟨.int n, rfl, ⟨fun _ => rfl, fun hf => absurd (Ty.isInteger_eq_false_of_isFloat hf) (by simp [hqi])⟩, rfl⟩

/-- A boolean is kept as one or zero. -/
theorem restores_bool (hq : q.isIntegral = true) (hc : c.Fits .bool) : (CastPlan.convert .zext).Restores .notZero .bool q.ir c := by
  cases c with
  | bool b =>
    refine ⟨.int (if b then 1 else 0), ?_⟩
    cases q <;> simp only [Primitive.isIntegral, Bool.false_eq_true] at hq <;> cases b <;>
      exact ⟨rfl, ⟨fun _ => rfl, fun h => by cases h⟩, rfl⟩
  | int n => exact absurd rfl hc.2.1
  | float x | string s => cases hc

end

theorem plan?_number {a b : TypeId} (hne : t.alike a b = false) (ha : (t.kind a).isCharacter = false) (hb : (t.kind b).isCharacter = false) :
    t.plan? a b .explicit = numberPlan? (t.kind a) (t.kind b) (t.ir a).bits (t.ir b).bits := by
  simp [plan?, ne_of_not_alike hne, hne, ha, hb]

/-- A conversion to an integral type that is at least as wide, and the one back. -/
theorem Reached.plan?_back (h : t.Reached) (hs : t.Has source) (ht : t.Has target) {p q : Primitive}
    (hkp : t.kind source = .primitive p) (hkq : t.kind target = .primitive q) (hq : q.isIntegral = true)
    (hp : p.isIntegral = true ∧ p.ir.bits ≤ q.ir.bits ∨ p = .bool) {c : Constant} (hc : c.Fits (t.ir source)) :
    ∃ plan back, t.plan? source target .explicit = some plan ∧ t.plan? target source .explicit = some back ∧
      plan.Restores back (t.ir source) (t.ir target) c := by
  have hcomm : t.alike target source = t.alike source target := by rw [alike, alike, BEq.comm]
  cases halike : t.alike source target with
  | true =>
    obtain ⟨-, hir, -⟩ := h.invariant.1.same_of_alike hs ht halike
    rcases plan?_of_alike halike .explicit with hplan | hplan <;>
      rcases plan?_of_alike (hcomm.trans halike) .explicit with hback | hback <;>
      exact ⟨_, _, hplan, hback, c, rfl, isOf_of_fits (hir ▸ hc), rfl⟩
  | false =>
    have hchar : ∀ {r : Primitive}, r.isIntegral = true ∨ r = .bool → (TypeKind.primitive r).isCharacter = false := by
      intro r hr
      cases r <;> simp_all [Primitive.isIntegral, TypeKind.isCharacter, Primitive.isCharacter]
    rw [plan?_number halike (hkp ▸ hchar (hp.imp_left And.left)) (hkq ▸ hchar (.inl hq)),
      plan?_number (hcomm.trans halike) (hkq ▸ hchar (.inl hq)) (hkp ▸ hchar (hp.imp_left And.left))]
    rw [h.ir_of_kind hs hkp] at hc ⊢
    rw [h.ir_of_kind ht hkq, hkp, hkq]
    rcases hp with ⟨hp, hle⟩ | rfl
    · exact ⟨_, _, if_pos (Bool.and_eq_true_iff.mpr ⟨hp, hq⟩), if_pos (Bool.and_eq_true_iff.mpr ⟨hq, hp⟩), restores_wider hp hq hle hc _⟩
    · refine ⟨_, _, ?_, ?_, restores_bool hq hc⟩ <;>
        (cases q <;> simp only [Primitive.isIntegral, Bool.false_eq_true] at hq <;> rfl)

end TypeTable

namespace Lowering

variable {w : Workspace} {x : Operand} {target : TypeId} {mode : CastMode} {plan : CastPlan} {c : Constant}

theorem cast_eq (hx : w.types.Has x.type) (ht : w.types.Has target)
    (hplan : w.types.plan? x.type target mode = some plan) (loc : Loc) : cast mode x target loc w =
      (match plan with
      | .identity => pure x
      | .retag => pure { type := target, value := x.value }
      | .convert op => return { type := target, value := ← convert op x.value (w.types.ir x.type) (w.types.ir target) }
      | .notZero => return { type := target, value := ← notZero x.value (w.types.ir x.type) } : Lowering Operand) w := by
  have htypes : typesWith [x.type, target] w = .ok w.types w :=
    run_typesWith.mpr ⟨List.forall_mem_cons.mpr ⟨hx, List.forall_mem_singleton.mpr ht⟩, rfl, rfl⟩
  rw [cast, bind_of_ok htypes]
  simp only [hplan]
  cases plan <;> rfl

theorem notZero_eq (v : Value) (type : Ty) : notZero v type =
    match v.constant?.bind fun c => (zeroTest type).1.result? type c (zeroTest type).2 with
    | some folded => pure (.constant folded)
    | none => build (.compare (zeroTest type).1 type v (.constant (zeroTest type).2)) := by
  unfold notZero zeroTest
  cases type.isFloat <;> rfl

/-- A number can be compared with zero. -/
theorem exists_zeroTest {type : Ty} (htype : type.isInteger = true ∨ type.isFloat = true) (hc : c.IsOf type) :
    ∃ d, (zeroTest type).1.result? type c (zeroTest type).2 = some d := by
  unfold zeroTest
  cases hf : type.isFloat with
  | true =>
    obtain ⟨n, hn⟩ := Option.isSome_iff_exists.mp (hc.2 hf)
    exact ⟨_, by simp only [if_true, Predicate.result?, Predicate.isFloat, hn]; rfl⟩
  | false =>
    obtain ⟨n, hn⟩ := Option.isSome_iff_exists.mp (hc.1 (htype.resolve_right (by simp [hf])))
    exact ⟨_, by simp only [Bool.false_eq_true, if_false, Predicate.result?, Predicate.isFloat, hn]; rfl⟩

/-- What computes a result at the place where a builder goes on. -/
theorem exists_emitted {r : Register} {f : Function} {b : BlockId} {B : Block} (hcursor : w.builder.Cursor f b B) (hopen : B.terminator = none)
    (target : TypeId) (type : Ty) {i : Register → Instruction} (hi : ∀ n, (i n).dest? = some n) {result : Option Constant}
    (hcompute : ∀ (m : Module) (g : Frame) n, g.registers[r]? = some (.constant c) →
      ∃ crash, g.compute m (i n) = Frame.resultOr crash result) :
    ∃ (y : Operand) (builder : Builder) (f' : Function) (row : List Instruction),
      (build (.define type i) >>= fun value => pure { type := target, value }) w = .ok y { w with builder } ∧
      builder.Cursor f' b { B with instructions := B.instructions ++ row } ∧ f.registers.size ≤ f'.registers.size ∧
      ∀ (m : Module) (g : Frame), g.registers[r]? = some (.constant c) → f'.registers.size ≤ g.registers.size →
        g.Evaluates m row y.value result := by
  have hsize : (f.addRegister type).2.registers.size = f.registers.size + 1 := Array.size_push _
  refine ⟨_, _, _, [i f.registers.size], bind_of_ok (run_build.mpr ⟨_, Build.define_eq hcursor hopen type i, rfl⟩), hcursor.update ?_, hsize ▸ Nat.le_succ _,
    fun m g hg hlt => ?_⟩
  · exact (Function.block?_emit hcursor.here b).trans (if_pos rfl)
  · obtain ⟨crash, hcrash⟩ := hcompute m g f.registers.size hg
    exact Frame.evaluates_single (hi _) (Nat.lt_of_lt_of_le (hsize ▸ Nat.lt_succ_self _) hlt) hcrash

section

variable (hw : w.types.Reached) (hx : w.types.Has x.type) (ht : w.types.Has target)
  (hplan : w.types.plan? x.type target mode = some plan)
include hw hx ht hplan

/-- The conversion of a constant is folded, if it gives anything. -/
theorem cast_constant (hvalue : x.value = .constant c) (hc : c.IsOf (w.types.ir x.type)) (loc : Loc) :
    match plan.result? (w.types.ir x.type) (w.types.ir target) c with
    | some d => ∃ y, cast mode x target loc w = .ok y w ∧ y.type = target ∧ y.value = .constant d
    | none => ∃ fault, cast mode x target loc w = .error fault w := by
  rw [cast_eq hx ht hplan]
  cases plan with
  | identity => exact ⟨x, rfl, TypeTable.eq_of_plan?_identity hplan, hvalue⟩
  | retag => exact ⟨_, rfl, rfl, hvalue⟩
  | convert op =>
    simp only [CastPlan.result?, hvalue, convert]
    cases op.result? c (w.types.ir x.type) (w.types.ir target) with
    | some d => exact ⟨_, rfl, rfl, rfl⟩
    | none => exact ⟨_, rfl⟩
  | notZero =>
    obtain ⟨d, hd⟩ := exists_zeroTest (hw.number_of_notZero hx hplan) hc
    simp only [CastPlan.result?, hd, notZero_eq, hvalue, Value.constant?, Option.bind_some, pure_bind]
    exact ⟨_, rfl, rfl, rfl⟩

omit hw in
/-- The conversion of a register is emitted, and computes what the constant would be folded to. -/
theorem cast_register {r : Register} {f : Function} {b : BlockId} {B : Block} (hvalue : x.value = .register r)
    (hcursor : w.builder.Cursor f b B) (hopen : B.terminator = none) (loc : Loc) :
    ∃ y builder f' row, cast mode x target loc w = .ok y { w with builder } ∧
      builder.Cursor f' b { B with instructions := B.instructions ++ row } ∧ f.registers.size ≤ f'.registers.size ∧
      ∀ (m : Module) (g : Frame), g.registers[r]? = some (.constant c) → f'.registers.size ≤ g.registers.size →
        g.Evaluates m row y.value (plan.result? (w.types.ir x.type) (w.types.ir target) c) := by
  have hconstant : ∀ (m : Module) (g : Frame), g.registers[r]? = some (.constant c) → g.constant m (.register r) = pure c := by
    intro m g hg
    simp only [Frame.constant, Frame.operand, hg, pure_bind]
  have hkept : ∀ (m : Module) (g : Frame), g.registers[r]? = some (.constant c) → g.Evaluates m [] (.register r) (some c) := by
    intro m g hg memory
    simp only [Frame.through, pure_bind, Frame.operand, hg]
    rfl
  rw [cast_eq hx ht hplan]
  cases plan with
  | identity | retag =>
    refine ⟨_, w.builder, f, [], rfl, by simpa using hcursor, Nat.le_refl _, fun m g hg _ => ?_⟩
    rw [hvalue]
    exact hkept m g hg
  | convert op =>
    simp only [hvalue, convert]
    refine exists_emitted hcursor hopen target _ (i := (.cast · op (.register r) _ _)) (fun _ => rfl) fun m g n hg =>
      ⟨.malformed (.inconvertible op c), ?_⟩
    simp only [Frame.compute, hconstant m g hg, pure_bind]
    rfl
  | notZero =>
    simp only [notZero_eq, hvalue, Value.constant?, Option.bind_none]
    refine exists_emitted hcursor hopen target _ (i := (.compare · _ _ (.register r) (.constant _))) (fun _ => rfl) fun m g n hg =>
      ⟨.malformed (.incomparable c (zeroTest (w.types.ir x.type)).2), ?_⟩
    have hzero : ∀ k, g.constant m (.constant k) = pure k := fun _ => rfl
    simp only [Frame.compute, hconstant m g hg, hzero, pure_bind]
    rfl

end

end Lowering

end Ember
