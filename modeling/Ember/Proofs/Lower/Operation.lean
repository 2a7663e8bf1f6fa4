import Ember.Proofs.IR.Arithmetic
import Ember.Proofs.Lower.Scene
import Ember.Proofs.Typing.Cast

/-!
# Operations lead from scene to scene

Every operation on operands appends typed instructions to the current block and returns an operand that fits, or the source is at fault.
-/

namespace Ember

open IR (Interface Grade Grading Instruction Value Ty)

variable {I : Interface} {params : List Grade}

namespace Family

/-- A representation on which the operations of a family work. -/
def Suits (ty : Ty) : Family → Prop
  | .integral | .character => ty.isInteger = true ∧ ty ≠ .bool
  | .floating => ty.isFloat = true
  | .boolean => ty = .bool
  | _ => False

/-- The predicate and the operation that an operator stands for in a family, for a kind of operands. -/
def predicate? (family : Family) (op : Operator) (unsigned : Bool) : Option IR.Predicate :=
  match family with
  | .integral => op.integerPredicate? unsigned
  | .floating => op.floatPredicate?
  | .boolean => op.boolPredicate?
  | .character => op.integerPredicate? true
  | _ => none

def combination? (family : Family) (op : Operator) (unsigned : Bool) : Option IR.BinaryOp :=
  match family with
  | .integral => op.integerBinary? unsigned
  | .floating => op.floatBinary?
  | .boolean => op.boolBinary?
  | _ => none

variable {family : Family} {op : Operator} {ty : Ty} {unsigned : Bool}

theorem predicate?_suits (unsigned : Bool) (hf : family.Suits ty) {pred : IR.Predicate} (h : family.predicate? op unsigned = some pred) :
    pred.Suits ty := by
  have hint : ∀ {b}, op.integerPredicate? b = some pred → ty.isInteger = true → pred.Suits ty := by
    intro b h hi
    cases op <;> cases b <;> cases h <;> exact hi
  cases family with
  | integral | character => exact hint h hf.1
  | floating => cases op <;> cases h <;> exact hf
  | boolean =>
    cases hf
    cases op <;> cases h <;> rfl
  | _ => cases h

theorem combination?_suits (hf : family.Suits ty) {combine : IR.BinaryOp} (h : family.combination? op unsigned = some combine) :
    ty.isInteger = true ∨ ty.isFloat = true := by
  cases family with
  | integral => exact .inl hf.1
  | floating => exact .inr hf
  | boolean =>
    cases hf
    exact .inl rfl
  | _ => cases h

end Family

namespace Lowering

variable {w : Workspace} {id : TypeId}

/-- The plain type is there already. -/
theorem immutableOf_eq (hv : w.types.Valid) (hid : w.types.Has id) : immutableOf id w = .ok (w.types.unqualified id) w := by
  have hrun := run_immutableOf.mpr ⟨hasTypes_single hid, rfl, rfl⟩
  rwa [hv.paired.immutableOf_eq hid] at hrun

theorem does_immutableOf {β : Type} {P : β → Workspace → Prop} {next : TypeId → Lowering β} (hv : w.types.Valid)
    (hid : w.types.Has id) (hnext : Does (next (w.types.unqualified id)) w P) : Does (immutableOf id >>= next) w P :=
  does_of_ok (immutableOf_eq hv hid) hnext

/-- The comparison with zero at a type, and the zero. -/
def zeroTest (type : IR.Ty) : IR.Predicate × IR.Constant :=
  if type.isFloat then (.une, .float .zero) else (.ne, .int 0)

end Lowering

/-- The operations of a type, if there are any, suit its representation. -/
theorem TypeTable.Valid.family_suits {t : TypeTable} (h : t.Valid) {id : TypeId} (hid : t.Has id)
    (hc : (t.kind id).family ≠ .callable) (hb : (t.kind id).family ≠ .bare) :
    (t.kind id).family.Suits (t.ir id) ∧ t.kind id ≠ .function := by
  rcases h.kind_cases hid with ⟨p, hk, hir⟩ | ⟨hk, -⟩
  · rw [hk] at hc hb ⊢
    rw [hir]
    refine ⟨?_, nofun⟩
    cases p <;> first
      | exact absurd rfl hb
      | simp [TypeKind.family, TypeKind.isIntegral, TypeKind.isFloating, TypeKind.isCharacter, TypeKind.isBool, Primitive.isIntegral,
          Primitive.isFloating, Primitive.isCharacter, Primitive.ir, Family.Suits, Ty.isInteger, Ty.isFloat]
  · rw [hk] at hc
    exact absurd rfl hc

/-- The constant of a literal at another type is a value of it, and that type is no function. -/
theorem TypeTable.Valid.adapt?_fits {t : TypeTable} (h : t.Valid) {id : TypeId} (hid : t.Has id) {v : Value}
    {c : IR.Constant} (hc : (t.kind id).adapt? (t.ir id) v = some c) : t.kind id ≠ .function ∧ c.Fits (t.ir id) := by
  rcases h.kind_cases hid with ⟨p, hk, hir⟩ | ⟨hk, -⟩
  · rw [hk, hir] at hc
    rw [hk, hir]
    refine ⟨nofun, ?_⟩
    unfold TypeKind.adapt? at hc
    split at hc
    · split at hc
      · rename_i n hcond
        cases hc
        obtain ⟨hi, hb⟩ := Primitive.isInteger_ir (p := p) (Bool.and_eq_true_iff.mp hcond).1
        exact ⟨hi, hb, Ty.wrap_wrap _ _⟩
      · cases hc
    · split at hc
      · rename_i hcond
        cases hc
        exact Ty.floating_fits _ (Primitive.isFloat_ir hcond)
      · cases hc
    · cases hc
  · rw [hk] at hc
    unfold TypeKind.adapt? at hc
    split at hc <;> simp [TypeKind.isIntegral, TypeKind.isFloating] at hc

namespace Spot

/-- A value of a representation that can be used here. -/
structure Holds (σ : Spot I params) (v : Value) (ty : Ty) : Prop where
  has : σ.grading.Has v (.datum ty)
  available : σ.Available v

variable {σ τ : Spot I params} {x : Operand} {v : Value} {ty : Ty}

/-- A constant of a representation can be used anywhere. -/
theorem holds_constant (σ : Spot I params) {c : IR.Constant} (h : c.Fits ty) : σ.Holds (.constant c) ty :=
  ⟨⟨ty, rfl, h⟩, nofun⟩

theorem IsDatum.holds (hx : σ.IsDatum x) : σ.Holds x.value (σ.work.types.ir x.type) :=
  ⟨hx.has, hx.available⟩

/-- A datum made of a value. -/
theorem Holds.isDatum {type : TypeId} (h : σ.Holds v ty) (hlt : σ.work.types.Has type)
    (hk : σ.work.types.kind type ≠ .function) (hir : σ.work.types.ir type = ty) : σ.IsDatum { type, value := v } :=
  ⟨rfl, hlt, hk, hir ▸ h.has, h.available⟩

/-- An operand that was read. -/
def IsRead (σ : Spot I params) (x : Operand) : Prop :=
  σ.IsDatum x ∨ σ.IsCallee x

theorem IsRead.lt (hx : σ.IsRead x) : σ.work.types.Has x.type :=
  hx.elim (·.lt) (·.lt)

/-- An operand that was read and is no function is a datum. -/
theorem IsRead.isDatum (hx : σ.IsRead x) (hk : σ.work.types.kind x.type ≠ .function) : σ.IsDatum x :=
  hx.resolve_right fun hc => hk hc.kind

theorem IsRead.appends {chunk : List Instruction} (hx : σ.IsRead x) (ha : σ.Appends τ chunk) : τ.IsRead x :=
  hx.imp (·.appends ha) (·.keeps ha.keeps)

theorem IsRead.fits (hx : σ.IsRead x) : σ.Fits x :=
  .inr hx

/-- A value that may be passed to a parameter of a grade. -/
structure Passes (σ : Spot I params) (v : Value) (g : Grade) : Prop where
  has : σ.grading.Has v g
  available : σ.Available v
  filled : ∀ r, v = .register r → σ.function.IsSlot r → σ.Filled r

theorem Passes.appends {chunk : List Instruction} {g : Grade} (h : σ.Passes v g) (ha : σ.Appends τ chunk) : τ.Passes v g where
  has := ha.keeps.has (lt_of_available h.available) h.has
  available := ha.available h.available
  filled := fun r hr hs => ha.keeps.filled r (h.filled r hr
    (ha.ledger.slot_old r (lt_of_available h.available r hr) hs))

/-- The register of a slot is an address. -/
theorem slot_grade (σ : Spot I params) {r : IR.Register} (h : σ.function.IsSlot r) : ∃ ty, σ.ledger.register r = .address ty := by
  obtain ⟨ty, hmem⟩ := h
  obtain ⟨b, B, hB, hi⟩ := IR.Function.mem_instructions.mp hmem
  exact ⟨ty, (σ.draft.blocks b B hB).typed _ hi⟩

theorem Fits.isPlace (hx : σ.Fits x) (hp : x.isPlace = true) : σ.IsPlace x := by
  rcases hx with hx | hx | hx
  · exact hx
  · rw [hx.isPlace] at hp
    cases hp
  · rw [hx.isPlace] at hp
    cases hp

theorem Fits.lt (hx : σ.Fits x) : σ.work.types.Has x.type :=
  hx.elim (·.lt) fun hx => hx.elim (·.lt) (·.lt)

theorem does_immutableOf {β : Type} {P : β → Workspace → Prop} {next : TypeId → Lowering β} (σ : Spot I params) {id : TypeId}
    (hid : σ.work.types.Has id) (hnext : ∀ id' < σ.work.types.entries.length, σ.work.types.ir id' = σ.work.types.ir id →
      σ.work.types.kind id' = σ.work.types.kind id → Lowering.Does (next id') σ.work P) :
    Lowering.Does (Lowering.immutableOf id >>= next) σ.work P := by
  obtain ⟨hlt, hir, hk, -⟩ := σ.types.paired.unqualified hid
  exact Lowering.does_immutableOf σ.types hid (hnext _ hlt hir hk)

end Spot

namespace Scene

open Lowering

variable {σ : Scene I params} {x y : Operand} {w : Workspace} {loc : Loc} {v : Value} {ty : Ty}

/-- What a step that succeeds leads to: a scene with the workspace of the step, where something holds. -/
def Yields (σ : Scene I params) (w : Workspace) (P : Spot I params → Prop) : Prop :=
  ∃ (τ : Scene I params) (chunk : List Instruction), τ.work = w ∧ σ.Appends τ.toSpot chunk ∧ P τ.toSpot

theorem Yields.here {P : Spot I params → Prop} (hP : P σ.toSpot) : σ.Yields σ.work P :=
  ⟨σ, [], rfl, .refl _, hP⟩

/-- A step that only appends, and leads to a scene where something holds of its result. -/
def Reaches {α : Type} (σ : Scene I params) (x : Lowering α) (P : α → Spot I params → Prop) : Prop :=
  Does x σ.work fun a w => σ.Yields w (P a)

section Reaches

variable {α β : Type} {step : Lowering α} {next : α → Lowering β} {P : α → Spot I params → Prop} {Q : β → Spot I params → Prop}

theorem reaches_pure {a : α} (h : P a σ.toSpot) : σ.Reaches (pure a) P :=
  does_pure (.here h)

variable (h : σ.Reaches step P)
include h

/-- What follows starts in the scene that was reached. -/
theorem Reaches.does {Q : β → Workspace → Prop}
    (hnext : ∀ a (τ : Scene I params) chunk, σ.Appends τ.toSpot chunk → P a τ.toSpot → Does (next a) τ.work Q) :
    Does (step >>= next) σ.work Q := by
  refine Does.bind h fun a w ⟨τ, chunk, hw, happ, hP⟩ => ?_
  subst hw
  exact hnext a τ chunk happ hP

theorem Reaches.bind (hnext : ∀ a (τ : Scene I params) chunk, σ.Appends τ.toSpot chunk → P a τ.toSpot → τ.Reaches (next a) Q) :
    σ.Reaches (step >>= next) Q :=
  h.does fun a τ chunk happ hP => Does.imp (hnext a τ chunk happ hP) fun _ _ ⟨υ, _, hw, happ', hQ⟩ => ⟨υ, _, hw, happ.trans happ', hQ⟩

theorem Reaches.then {g : α → β} (hg : ∀ a (τ : Spot I params) chunk, σ.Appends τ chunk → P a τ → Q (g a) τ) :
    σ.Reaches (step >>= fun a => pure (g a)) Q :=
  h.bind fun a τ chunk happ hP => reaches_pure (hg a τ.toSpot chunk happ hP)

theorem Reaches.imp {Q : α → Spot I params → Prop} (hPQ : ∀ a (τ : Spot I params) chunk, σ.Appends τ chunk → P a τ → Q a τ) :
    σ.Reaches step Q :=
  Does.imp h fun a _ ⟨τ, chunk, hw, happ, hP⟩ => ⟨τ, chunk, hw, happ, hPQ a τ.toSpot chunk happ hP⟩

end Reaches

variable {type : Ty} {u : Value} {target : TypeId} {family : Family} {op : Operator}

/-! ## Instructions -/

/-- An instruction that gives a datum is appended. -/
theorem reaches_define {i : IR.Register → Instruction} (hdest : ∀ r, (i r).dest? = some r) (hphi : ∀ r, (i r).isPhi = false)
    (halloca : ∀ r, (i r).isAlloca = false) (hreading : ∀ q r, .register r ∈ (i q).reading → σ.function.IsSlot r → σ.Filled r)
    (hoperands : ∀ r, ∀ v ∈ (i r).operands, σ.Available v) (htyped : ∀ (γ : Grading) r, γ.interface = I → γ.register r = .datum type →
      (∀ v g, v ∈ (i r).operands → σ.grading.Has v g → γ.Has v g) → γ.Types (i r)) :
    σ.Reaches (build (.define type i)) fun v τ => τ.Holds v type :=
  (does_emitTo (.datum type) hdest hphi halloca htyped hoperands hreading).imp fun _ _ ⟨τ, hw, happ, hhas, hav⟩ =>
    ⟨τ, _, hw, happ, hhas, hav⟩

/-- An instruction that gives nothing is appended. -/
theorem reaches_emit {i : Instruction} (hphi : i.isPhi = false) (halloca : i.isAlloca = false) (htyped : σ.grading.Types i)
    (hdest : i.dest? = none) (hoperands : ∀ v ∈ i.operands, σ.Available v)
    (hreading : ∀ r, .register r ∈ i.reading → σ.function.IsSlot r → σ.Filled r) : σ.Reaches (build (.emit i)) fun _ _ => True :=
  (does_emit hphi halloca htyped hdest hoperands hreading).imp fun _ _ ⟨τ, hw, happ⟩ => ⟨τ, _, hw, happ, trivial⟩

/-- An instruction that computes with two values of a representation. -/
theorem reaches_pair {i : IR.Register → Instruction} {l r : Value} (hl : σ.Holds l ty) (hr : σ.Holds r ty)
    (hdest : ∀ q, (i q).dest? = some q) (hphi : ∀ q, (i q).isPhi = false) (halloca : ∀ q, (i q).isAlloca = false)
    (hreading : ∀ q, (i q).reading = []) (hoperands : ∀ q, (i q).operands = [l, r])
    (htyped : ∀ (γ : Grading) q, γ.register q = .datum type → γ.Has l (.datum ty) → γ.Has r (.datum ty) → γ.Types (i q)) :
    σ.Reaches (build (.define type i)) fun v τ => τ.Holds v type := by
  refine reaches_define hdest hphi halloca (fun q _ hq => ?_) (fun q u hu => ?_) fun γ q _ hreg hhas => ?_
  · rw [hreading] at hq
    cases hq
  · rw [hoperands] at hu
    rcases List.mem_pair.mp hu with rfl | rfl
    · exact hl.available
    · exact hr.available
  · exact htyped γ q hreg (hhas l _ (by simp [hoperands]) hl.has) (hhas r _ (by simp [hoperands]) hr.has)

theorem reaches_binary {op : IR.BinaryOp} {l r : Value} (hl : σ.Holds l ty) (hr : σ.Holds r ty)
    (hty : ty.isInteger = true ∨ ty.isFloat = true) : σ.Reaches (build (.binary op ty l r)) fun v τ => τ.Holds v ty :=
  reaches_pair hl hr (fun _ => rfl) (fun _ => rfl) (fun _ => rfl) (fun _ => rfl) (fun _ => rfl) fun _ _ hreg hl hr => ⟨hreg, hty, hl, hr⟩

theorem reaches_compare {pred : IR.Predicate} {l r : Value} (hl : σ.Holds l ty) (hr : σ.Holds r ty) (hp : pred.Suits ty) :
    σ.Reaches (build (.compare pred ty l r)) fun v τ => τ.Holds v .bool :=
  reaches_pair hl hr (fun _ => rfl) (fun _ => rfl) (fun _ => rfl) (fun _ => rfl) (fun _ => rfl) fun _ _ hreg hl hr => ⟨hreg, hp, hl, hr⟩

theorem reaches_unary {op : IR.UnaryOp} (hu : σ.Holds u ty) (hop : op.Suits ty) :
    σ.Reaches (build (.unary op ty u)) fun v τ => τ.Holds v ty :=
  reaches_define (fun _ => rfl) (fun _ => rfl) (fun _ => rfl) nofun
    (fun _ _ hv => List.mem_singleton.mp hv ▸ hu.available)
    fun γ r hI hreg hhas => ⟨hreg, hop, hhas _ _ (by simp [Instruction.operands]) hu.has⟩

theorem reaches_converted {op : IR.CastOp} {source target : Ty} (hu : σ.Holds u source) (hop : op.Suits source target) :
    σ.Reaches (build (.cast op u source target)) fun v τ => τ.Holds v target :=
  reaches_define (fun _ => rfl) (fun _ => rfl) (fun _ => rfl) nofun
    (fun _ _ hv => List.mem_singleton.mp hv ▸ hu.available)
    fun γ r hI hreg hhas => ⟨hreg, hop, hhas _ _ (by simp [Instruction.operands]) hu.has⟩

theorem available_place (hx : σ.IsPlace x) : σ.Available x.value :=
  fun r hr => .inl (hx.slot r hr).1

theorem reaches_load (hx : σ.IsPlace x) (hty : type = σ.work.types.ir x.type) :
    σ.Reaches (build (.load type x.value)) fun v τ => τ.Holds v type := by
  subst hty
  refine reaches_define (fun _ => rfl) (fun _ => rfl) (fun _ => rfl) (fun _ r hr hs => ?_)
    (fun _ _ hv => List.mem_singleton.mp hv ▸ available_place hx)
    fun γ r hI hreg hhas => ⟨hreg, hx.reads.map (σ := id) (hI ▸ rfl) (fun _ _ => rfl) fun g => hhas _ g (by simp [Instruction.operands])⟩
  exact (hx.slot r (List.mem_singleton.mp hr).symm).2

theorem reaches_store {value : Value} (hx : σ.IsPlace x) (hm : x.mutable = true) (hty : type = σ.work.types.ir x.type)
    (hv : σ.Holds value type) : σ.Reaches (build (.store type value x.value)) fun _ _ => True := by
  subst hty
  refine reaches_emit (i := .store x.value value _) rfl rfl ⟨hx.address hm, hv.has⟩ rfl (fun u hu => ?_)
    nofun
  rcases List.mem_pair.mp hu with rfl | rfl
  · exact available_place hx
  · exact hv.available

/-! ## Conversions -/

/-- Reading gives a datum, or leaves a function. -/
theorem reaches_read (hx : σ.Fits x) : σ.Reaches (read x) fun y τ => τ.IsRead y ∧ τ.work.types.kind y.type = σ.work.types.kind x.type ∧
      τ.work.types.ir y.type = σ.work.types.ir x.type := by
  refine does_ite (fun hp => reaches_pure ⟨hx.resolve_left fun hx => ?_, rfl, rfl⟩) fun hp => ?_
  · rw [hx.isPlace] at hp
    cases hp
  · have hx : σ.IsPlace x := hx.isPlace (by simpa using hp)
    refine σ.does_immutableOf hx.lt fun type hlt hir hk => does_irOf hlt ?_
    refine (reaches_load hx hir).then fun v τ chunk happ hh => ?_
    have hkind := (happ.keeps.kind hlt).trans hk
    have hir' := (happ.types.ir hlt).trans hir
    exact ⟨.inl (hh.isDatum (happ.keeps.lt hlt) (hkind ▸ hx.kind) (happ.types.ir hlt)), hkind, hir'⟩

/-- The comparison with zero suits a number, and so does its zero. -/
theorem zeroTest_suits (hty : ty.isInteger = true ∧ ty ≠ .bool ∨ ty.isFloat = true) :
    (zeroTest ty).1.Suits ty ∧ (zeroTest ty).2.Fits ty := by
  unfold zeroTest
  rcases hty with ⟨hi, hb⟩ | hf
  · rw [Ty.isFloat_eq_false_of_isInteger hi]
    exact ⟨hi, Ty.zero_fits hi hb⟩
  · rw [hf]
    exact ⟨hf, hf⟩

theorem reaches_notZero (hv : σ.Holds v ty) (hty : ty.isInteger = true ∧ ty ≠ .bool ∨ ty.isFloat = true) :
    σ.Reaches (notZero v ty) fun u τ => τ.Holds u .bool := by
  obtain ⟨hp, hz⟩ := zeroTest_suits hty
  unfold notZero
  unfold zeroTest at hp hz
  generalize (if ty.isFloat then _ else _ : IR.Predicate × IR.Constant) = test at hp hz ⊢
  dsimp only
  split
  · rename_i folded hc
    obtain ⟨c, hvc, hf⟩ := Option.bind_eq_some_iff.mp hc
    obtain rfl : v = .constant c := by cases v <;> cases hvc; rfl
    obtain ⟨t, ht, hfits⟩ := hv.has
    cases ht
    obtain ⟨c', hc', hbool⟩ := IR.Predicate.result?_fits hp hfits hz
    obtain rfl := Option.some.inj (hf.symm.trans hc')
    exact reaches_pure (σ.holds_constant hbool)
  · exact reaches_compare hv (σ.holds_constant hz) hp

/-- A constant that fits can be converted. -/
theorem reaches_convert {op : IR.CastOp} {source target : Ty} (hv : σ.Holds v source) (hop : op.Suits source target) :
    σ.Reaches (convert op v source target) fun u τ => τ.Holds u target := by
  unfold convert
  cases v with
  | constant c =>
    obtain ⟨t, ht, hfits⟩ := hv.has
    cases ht
    obtain ⟨c', hc', hfolded⟩ := IR.CastOp.result?_fits hop hfits
    simp only [hc']
    exact reaches_pure (σ.holds_constant hfolded)
  | _ => exact reaches_converted hv hop

/-- A value of the representation of a type that is no function, computed on the way, is a datum of it. -/
theorem Reaches.typed {step : Lowering Value} (h : σ.Reaches step fun v τ => τ.Holds v ty) (ht : σ.work.types.Has target)
    (hk : σ.work.types.kind target ≠ .function) (hir : σ.work.types.ir target = ty) :
    σ.Reaches (step >>= fun value => pure { type := target, value }) fun y τ => τ.IsDatum y ∧ y.type = target :=
  h.then fun _ _ _ happ hh => ⟨hh.isDatum (happ.keeps.lt ht) (happ.keeps.kind ht ▸ hk) ((happ.types.ir ht).trans hir), rfl⟩

/-- A conversion to a type that is no function gives a datum of that type. -/
theorem reaches_cast {mode : CastMode} (hx : σ.IsRead x) (ht : σ.work.types.Has target)
    (hk : σ.work.types.kind target ≠ .function) (hmode : mode ≠ .bitcast) :
    σ.Reaches (cast mode x target loc) fun y τ => τ.IsDatum y ∧ y.type = target := by
  refine does_typesWith (hasTypes_pair hx.lt ht) ?_
  cases hp : σ.work.types.plan? x.type target mode with
  | none => exact does_mismatch hx.lt
  | some plan =>
    obtain ⟨hs, hf⟩ := σ.types.plan?_suits hx.lt ht hmode hp
    have hd : σ.IsDatum x := hx.isDatum fun hfx => hk (hf hfx)
    cases plan with
    | identity => exact reaches_pure ⟨hd, TypeTable.eq_of_plan?_identity hp⟩
    | retag => exact reaches_pure ⟨⟨rfl, ht, hk, hs ▸ hd.has, hd.available⟩, rfl⟩
    | convert op => exact (reaches_convert hd.holds hs).typed ht hk rfl
    | notZero => exact (reaches_notZero hd.holds hs.1).typed ht hk hs.2

/-! ## Literals -/

/-- A literal takes the type of a context that is no function; all else stays as it is. -/
theorem reaches_adapt (hx : σ.IsRead x) (ht : σ.work.types.Has target) : σ.Reaches (adapt x target) fun y τ => τ.IsRead y := by
  refine does_ite (fun _ => reaches_pure hx) fun _ => σ.does_immutableOf ht fun type hlt _ _ =>
    does_typesWith (hasTypes_single hlt) ?_
  split
  · rename_i c hc
    obtain ⟨hk, hfits⟩ := σ.types.adapt?_fits hlt hc
    exact reaches_pure (.inl ⟨rfl, hlt, hk, ⟨_, rfl, hfits⟩, nofun⟩)
  · exact reaches_pure hx

theorem reaches_adaptPair {l r : Operand} (hl : σ.IsRead l) (hr : σ.IsRead r) :
    σ.Reaches (adaptPair l r) fun p τ => τ.IsRead p.1 ∧ τ.IsRead p.2 := by
  have hleft : σ.Reaches (do return (← adapt l r.type, r)) fun p τ => τ.IsRead p.1 ∧ τ.IsRead p.2 :=
    (reaches_adapt hl hr.lt).then fun _ _ _ happ hl' => ⟨hl', hr.appends happ⟩
  have hright : σ.Reaches (do return (l, ← adapt r l.type)) fun p τ => τ.IsRead p.1 ∧ τ.IsRead p.2 :=
    (reaches_adapt hr hl.lt).then fun _ _ _ happ hr' => ⟨hl.appends happ, hr'⟩
  unfold adaptPair
  split
  · exact reaches_pure ⟨hl, hr⟩
  · exact hleft
  · exact hright
  · refine does_of_ok (run_map.mpr ⟨_, run_irOf.mpr ⟨hasTypes_single hl.lt, rfl, rfl⟩, rfl⟩) ?_
    refine does_of_ok (run_map.mpr ⟨_, run_irOf.mpr ⟨hasTypes_single hr.lt, rfl, rfl⟩, rfl⟩) ?_
    exact does_ite (fun _ => hleft) fun _ => hright

theorem reaches_coerce (hx : σ.IsRead x) (ht : σ.work.types.Has target) (hk : σ.work.types.kind target ≠ .function) :
    σ.Reaches (coerce x target loc) fun y τ => τ.IsDatum y ∧ y.type = target := by
  refine (reaches_adapt hx ht).bind fun x' τ chunk happ hx' => ?_
  have ht' := happ.keeps.lt ht
  exact does_typesWith (hasTypes_pair hx'.lt ht') (does_ite (fun _ => does_mismatchAt ht' hx'.lt) fun _ =>
    reaches_cast hx' ht' (happ.keeps.kind ht ▸ hk) nofun)

/-! ## Operators -/

/-- What was read is not read again. -/
theorem read_of_isRead (hx : σ.IsRead x) : read x = pure x := by
  have hp : x.isPlace = false := hx.elim (·.isPlace) (·.isPlace)
  unfold Lowering.read
  rw [hp]
  rfl

theorem bool_lt (σ : Spot I params) (p : Primitive) : σ.work.types.Has (TypeTable.primitive p) :=
  (List.getElem?_eq_some_iff.mp (σ.types.primitive p)).1

/-- A value of a primitive type is a datum. -/
theorem isDatum_primitive {τ : Spot I params} {p : Primitive} (h : τ.Holds v p.ir) :
    τ.IsDatum { type := TypeTable.primitive p, value := v } :=
  h.isDatum (bool_lt τ p) (by simp [τ.types.kind_primitive]) (τ.types.ir_primitive p)

theorem negate_suits (h : ty.isInteger = true ∨ ty.isFloat = true) : (if ty.isFloat then IR.UnaryOp.fneg else IR.UnaryOp.neg).Suits ty := by
  split
  · assumption
  · exact h.resolve_right ‹_›

theorem reaches_applyUnary (hx : σ.IsRead x) (hf : family = (σ.work.types.kind x.type).family) :
    σ.Reaches (family.unary op x loc) fun y τ => τ.IsDatum y := by
  have hsuits : family ≠ .callable → family ≠ .bare → family.Suits (σ.work.types.ir x.type) ∧ σ.IsDatum x := by
    intro hc hb
    obtain ⟨hs, hk⟩ := σ.types.family_suits hx.lt (hf ▸ hc) (hf ▸ hb)
    exact ⟨hf ▸ hs, hx.isDatum hk⟩
  unfold Family.unary
  rw [read_of_isRead hx]
  cases family with
  | integral =>
    obtain ⟨hs, hd⟩ := hsuits nofun nofun
    refine does_of_ok rfl (σ.does_immutableOf hx.lt fun type hlt hir hk => ?_)
    have hv : σ.Holds x.value (σ.work.types.ir type) := hir ▸ hd.holds
    rw [← hir] at hs
    cases op with
    | unaryPlus => exact (reaches_cast hx (bool_lt _ _) (by simp [σ.types.kind_primitive]) (by simp)).imp fun _ _ _ _ hy => hy.1
    | unaryMinus =>
      exact does_irOf hlt (((reaches_unary hv (negate_suits (.inl hs.1))).typed hlt (hk ▸ hd.kind) rfl).imp fun _ _ _ _ hy => hy.1)
    | bitNot => exact does_irOf hlt (((reaches_unary hv (by exact hs.1)).typed hlt (hk ▸ hd.kind) rfl).imp fun _ _ _ _ hy => hy.1)
    | logicalNot =>
      exact does_irOf hlt ((reaches_compare hv (σ.holds_constant (Ty.zero_fits hs.1 hs.2)) (by exact hs.1)).then
        fun _ _ _ _ hh => isDatum_primitive hh)
    | _ => exact does_unsupported hlt
  | floating =>
    obtain ⟨hs, hd⟩ := hsuits nofun nofun
    refine does_of_ok rfl (σ.does_immutableOf hx.lt fun type hlt hir hk => ?_)
    have hv : σ.Holds x.value (σ.work.types.ir type) := hir ▸ hd.holds
    cases op with
    | unaryMinus =>
      exact does_irOf hlt (((reaches_unary hv (negate_suits (.inr (hir ▸ hs)))).typed hlt (hk ▸ hd.kind) rfl).imp fun _ _ _ _ hy => hy.1)
    | _ => exact does_unsupported hlt
  | boolean =>
    obtain ⟨hs, hd⟩ := hsuits nofun nofun
    have hv : σ.Holds x.value .bool := hs ▸ hd.holds
    refine does_of_ok rfl ?_
    cases op with
    | logicalNot => exact (reaches_unary hv (by rfl)).then fun _ _ _ _ hh => isDatum_primitive hh
    | _ => exact does_unsupported (bool_lt _ _)
  | _ => exact does_unsupported hx.lt

section Binary

variable {l r : Operand} {id : TypeId} (hid : σ.work.types.Has id) (hl : σ.Holds l.value (σ.work.types.ir id))
  (hr : σ.Holds r.value (σ.work.types.ir id))
include hid hl hr

theorem reaches_compareAt {pred : IR.Predicate} (hp : pred.Suits (σ.work.types.ir id)) :
    σ.Reaches (compareAt pred id l r) fun y τ => τ.IsDatum y :=
  does_irOf hid ((reaches_compare hl hr hp).then fun _ _ _ _ hh => isDatum_primitive hh)

theorem reaches_combineAt {op : IR.BinaryOp} (hk : σ.work.types.kind id ≠ .function)
    (hty : (σ.work.types.ir id).isInteger = true ∨ (σ.work.types.ir id).isFloat = true) :
    σ.Reaches (combineAt op id l r) fun y τ => τ.IsDatum y :=
  does_irOf hid (((reaches_binary hl hr hty).typed hid hk rfl).imp fun _ _ _ _ hy => hy.1)

end Binary

theorem reaches_applyBinary {l r : Operand} (hl : σ.IsRead l) (hr : σ.IsRead r) (hf : family = (σ.work.types.kind l.type).family) :
    σ.Reaches (family.binary op l r loc) fun y τ => τ.IsDatum y := by
  -- The operands have one representation, which suits the family, and the operation goes on at the plain type.
  have hcommon : family ≠ .callable → family ≠ .bare → ∀ {next : TypeId → Lowering Operand},
      (∀ type < σ.work.types.entries.length, family.Suits (σ.work.types.ir type) → σ.work.types.kind type ≠ .function →
        σ.Holds l.value (σ.work.types.ir type) → σ.Holds r.value (σ.work.types.ir type) →
        σ.Reaches (next type) fun y τ => τ.IsDatum y) →
      σ.Reaches (commonType l r loc >>= next) fun y τ => τ.IsDatum y := by
    intro hc hb next hnext
    obtain ⟨hs, hfun⟩ := σ.types.family_suits hl.lt (hf ▸ hc) (hf ▸ hb)
    refine Does.bind (Q := fun type w => w = σ.work ∧ σ.work.types.Has type ∧ σ.work.types.ir type = σ.work.types.ir l.type ∧
      σ.work.types.kind type = σ.work.types.kind l.type ∧ σ.work.types.alike l.type r.type = true) ?_ fun type w ⟨hw, hlt, hir, hk, ha⟩ => ?_
    · refine does_typesWith (hasTypes_pair hl.lt hr.lt) (does_ite (fun _ => does_mismatchAt hl.lt hr.lt) fun ha => ?_)
      obtain ⟨hlt, hir, hk, -⟩ := σ.types.paired.unqualified hl.lt
      exact does_outcome (immutableOf_eq σ.types hl.lt) ⟨rfl, hlt, hir, hk, by simpa using ha⟩
    · subst hw
      obtain ⟨hirs, hks, -⟩ := σ.types.alike hl.lt hr.lt ha
      exact hnext type hlt (hir ▸ hf ▸ hs) (hk ▸ hfun) (hir ▸ (hl.isDatum hfun).holds) (hir ▸ hirs ▸ (hr.isDatum (hks ▸ hfun)).holds)
  unfold Family.binary
  cases family with
  | integral =>
    refine hcommon nofun nofun fun type hlt hs hk hlv hrv => does_kindOf hlt ?_
    dsimp only
    split
    · exact reaches_compareAt hlt hlv hrv (Family.predicate?_suits _ hs ‹_›)
    · exact reaches_combineAt hlt hlv hrv hk (Family.combination?_suits hs ‹_›)
    · exact does_unsupported hlt
  | floating =>
    refine hcommon nofun nofun fun type hlt hs hk hlv hrv => ?_
    split
    · exact reaches_compareAt hlt hlv hrv (Family.predicate?_suits false hs ‹_›)
    · exact reaches_combineAt hlt hlv hrv hk (.inr hs)
    · exact does_unsupported hlt
  | boolean =>
    refine hcommon nofun nofun fun type hlt hs hk hlv hrv => ?_
    split
    · exact reaches_compareAt hlt hlv hrv (Family.predicate?_suits false hs ‹_›)
    · exact ((reaches_binary (hs ▸ hlv) (hs ▸ hrv) (.inl rfl)).typed hlt hk hs).imp fun _ _ _ _ hy => hy.1
    · exact does_unsupported hlt
  | character =>
    dsimp only
    split
    · exact does_unsupported hl.lt
    · refine hcommon nofun nofun fun type hlt hs hk hlv hrv => ?_
      exact reaches_compareAt hlt hlv hrv (Family.predicate?_suits false hs ‹_›)
  | _ => exact does_unsupported hl.lt

/-- Stores a value in a place, or, for a compound operator, what the place held combined with it. -/
theorem reaches_assign {target value : Operand} (htarget : σ.Fits target) (hvalue : σ.IsRead value)
    (hf : family = (σ.work.types.kind target.type).family) : σ.Reaches (family.assign op target value loc) fun y τ => τ.IsDatum y := by
  unfold Family.assign
  refine does_ite (fun _ => does_mismatchAt htarget.lt htarget.lt) fun hplace => ?_
  simp only [Bool.or_eq_true, Bool.not_eq_true', not_or, Bool.not_eq_false] at hplace
  have htarget : σ.IsPlace target := htarget.isPlace hplace.1
  refine σ.does_immutableOf htarget.lt fun type hlt hir hk => ?_
  -- What follows once the value to store is there.
  have hstore : ∀ {τ : Scene I params} {chunk : List Instruction} {stored : Operand}, σ.Appends τ.toSpot chunk → τ.IsRead stored →
      τ.Reaches (do
        if !(← typesWith [stored.type, type]).accepts stored.type type then mismatch (.type (← nameOf type)) stored.type loc
        let stored ← cast .implicit stored type loc
        build (.store (← irOf type) stored.value target.value)
        return stored) fun y υ => υ.IsDatum y := by
    intro τ chunk stored happ hs
    have hlt' := happ.keeps.lt hlt
    have hk' := (happ.keeps.kind hlt).trans hk
    refine does_typesWith (hasTypes_pair hs.lt hlt') (does_ite (fun _ => does_mismatchAt hlt' hs.lt) fun _ => ?_)
    refine (reaches_cast hs hlt' (hk' ▸ htarget.kind) (by simp)).bind fun y υ chunk' happ' ⟨hd, htype⟩ => does_irOf (happ'.keeps.lt hlt') ?_
    have hir' : υ.work.types.ir type = υ.work.types.ir target.type := by
      rw [happ'.types.ir hlt', happ'.types.ir (happ.keeps.lt htarget.lt), happ.types.ir hlt, happ.types.ir htarget.lt, hir]
    exact (reaches_store ((htarget.keeps happ.keeps).keeps happ'.keeps) hplace.2 hir' (htype ▸ hd.holds)).then
      fun _ _ _ happ'' _ => hd.appends happ''
  refine does_ite (fun _ => ?_) fun _ => ?_
  · rw [read_of_isRead hvalue]
    exact Reaches.bind (P := fun y τ => τ.IsRead y) (reaches_pure hvalue) fun _ _ _ happ hs => hstore happ hs
  · split
    · exact .stop (does_unsupported htarget.lt)
    · refine (reaches_read (.inl htarget)).bind fun current τ chunk happ ⟨hcur, hkcur, _⟩ => ?_
      have hvalue' := hvalue.appends happ
      rw [read_of_isRead hvalue']
      refine does_of_ok rfl ((reaches_applyBinary hcur hvalue' (hkcur ▸ hf)).bind fun stored υ chunk' happ' hd => ?_)
      exact hstore (happ.trans happ') (.inl hd)

/-! ## Calls -/

theorem reaches_argument {arg : Operand} {param : TypeId} {mode : PassMode} {position : Nat} (harg : σ.Fits arg)
    (hlt : σ.work.types.Has param) (hk : σ.work.types.kind param ≠ .function) :
    σ.Reaches (Family.argument arg param mode position loc) fun v τ => τ.Passes v (σ.work.types.grade (param, mode)) := by
  unfold Family.argument
  refine does_ite (fun hm => ?_) fun hm => ?_
  · refine does_typesWith (hasTypes_pair harg.lt hlt) (does_ite (fun _ => does_mismatchAt hlt harg.lt) fun hc => ?_)
    simp only [Bool.or_eq_true, Bool.not_eq_true', not_or, Bool.not_eq_false] at hc
    obtain ⟨⟨hplace, hmutable⟩, halike⟩ := hc
    have harg : σ.IsPlace arg := harg.isPlace hplace
    refine reaches_pure ⟨?_, available_place harg, fun r hr _ => (harg.slot r hr).2⟩
    rw [TypeTable.grade, if_pos hm, ← (σ.types.alike harg.lt hlt halike).1]
    exact harg.address hmutable
  · refine (reaches_read harg).bind fun arg' τ chunk happ hread => ?_
    obtain ⟨hread, -⟩ := hread
    have hlt' := happ.keeps.lt hlt
    refine does_typesWith (hasTypes_pair hread.lt hlt') (does_ite (fun _ => does_mismatchAt hlt' hread.lt) fun _ => ?_)
    refine (reaches_cast hread hlt' (happ.keeps.kind hlt ▸ hk) (by simp)).then fun y υ chunk' happ' hcast => ?_
    obtain ⟨hd, htype⟩ := hcast
    have hir : υ.work.types.ir y.type = σ.work.types.ir param := by
      rw [htype, happ'.types.ir hlt', happ.types.ir hlt]
    refine ⟨?_, hd.available, fun r hr hs => ?_⟩
    · rw [TypeTable.grade, if_neg hm, ← hir]
      exact hd.has
    · obtain ⟨ty, hty⟩ := υ.slot_grade hs
      have hhas := hd.has
      rw [hr] at hhas
      cases hhas.symm.trans hty

theorem reaches_arguments {args : List Operand} {parameters : List (TypeId × PassMode)} {position : Nat} (hargs : ∀ x ∈ args, σ.Fits x)
    (hparams : ∀ p ∈ parameters, σ.work.types.Has p.1 ∧ σ.work.types.kind p.1 ≠ .function)
    (hlen : args.length = parameters.length) : σ.Reaches (Family.arguments loc position args parameters)
      fun values τ => List.Forall₂ τ.Passes values (parameters.map σ.work.types.grade) := by
  induction args generalizing σ parameters position with
  | nil =>
    cases parameters with
    | nil => exact reaches_pure .nil
    | cons p parameters => cases hlen
  | cons x args ih =>
    cases parameters with
    | nil => cases hlen
    | cons p parameters =>
      obtain ⟨hlt, hk⟩ := hparams p List.mem_cons_self
      have hrest := fun q hq => hparams q (List.mem_cons_of_mem p hq)
      refine (reaches_argument (hargs x List.mem_cons_self) hlt hk).bind fun v τ chunk happ hp => ?_
      refine Reaches.then (ih (fun y hy => (hargs y (List.mem_cons_of_mem _ hy)).appends happ) (fun q hq => ?_) (Nat.succ.inj hlen))
        fun values υ chunk' happ' hvalues => ?_
      · obtain ⟨hq', hk'⟩ := hrest q hq
        exact ⟨happ.keeps.lt hq', happ.keeps.kind hq' ▸ hk'⟩
      · have hgrades : parameters.map τ.work.types.grade = parameters.map σ.work.types.grade := List.map_congr_left fun q hq => by
          rw [TypeTable.grade, TypeTable.grade, happ.types.ir (hrest q hq).1]
        exact .cons (hp.appends happ') (hgrades ▸ hvalues)

/-- A call of a function of the interface. -/
theorem reaches_invoke {name : String} {values : List Value} {grades : List Grade} {ret : Ty}
    (hsig : I.signature? name = some (grades, ret)) (hvalues : List.Forall₂ σ.Passes values grades) :
    σ.Reaches (build (.call name values ret)) fun v τ => τ.Holds v ret := by
  have hpass : ∀ u ∈ values, ∃ g, σ.Passes u g := by
    intro u hu
    obtain ⟨n, hn, rfl⟩ := List.getElem_of_mem hu
    exact ⟨_, hvalues.get hn (hvalues.length_eq ▸ hn)⟩
  have hreading : ∀ r, .register r ∈ values → σ.function.IsSlot r → σ.Filled r := fun r hr hs =>
    (hpass _ hr).elim fun _ hp => hp.filled r rfl hs
  have htyped : ∀ γ : Grading, (∀ u g, u ∈ values → σ.grading.Has u g → γ.Has u g) → List.Forall₂ γ.Has values grades := fun γ hγ => by
    rw [List.forall₂_iff_get]
    exact ⟨hvalues.length_eq, fun n hn hn' => hγ _ _ (List.get_mem _ _) (hvalues.get hn hn').has⟩
  have havailable : ∀ u ∈ values, σ.Available u := fun u hu => (hpass u hu).elim fun _ hp => hp.available
  unfold IR.Build.call
  split
  · rename_i hret
    subst hret
    rw [build_bind]
    exact (reaches_emit (i := .call none name values .void) rfl rfl ⟨⟨grades, hsig, htyped _ fun _ _ _ hg => hg⟩, by simp, by simp⟩ rfl
      havailable hreading).then fun _ _ _ _ _ => ⟨rfl, nofun⟩
  · rename_i hret
    exact reaches_define (fun _ => rfl) (fun _ => rfl) (fun _ => rfl) (fun _ => hreading) (fun _ => havailable) fun γ r hI hreg hhas =>
      ⟨⟨grades, hI ▸ hsig, htyped γ hhas⟩, fun q hq => Option.some.inj hq ▸ hreg, by simp [hret]⟩

/-- The type of a function has a signature. -/
theorem exists_signature (hx : σ.IsCallee x) : ∃ s, (σ.work.types.entry x.type).signature? = some s := by
  rcases σ.types.kind_cases hx.lt with ⟨p, hk, -⟩ | ⟨-, ⟨e, s, he, hs, -⟩, -⟩
  · rw [hx.kind] at hk
    cases hk
  · rw [TypeTable.entry_eq he]
    exact ⟨s, TypeTable.signature?_eq_some.mpr hs⟩

theorem reaches_call {callee : Operand} {args : List Operand} (hcallee : σ.IsRead callee) (hargs : ∀ x ∈ args, σ.Fits x) :
    σ.Reaches (Family.call callee args loc) fun y τ => τ.IsDatum y := by
  unfold Family.call
  split
  · rename_i name hvalue
    have hcallee : σ.IsCallee callee := hcallee.resolve_left fun hd => by
      have := hd.has
      rw [hvalue] at this
      exact this
    obtain ⟨s, hs⟩ := exists_signature hcallee
    obtain ⟨name', hvalue', hsig⟩ := hcallee.callee s hs
    cases hvalue.symm.trans hvalue'
    have htypes : ∀ x ∈ s.types, σ.work.types.Has x ∧ σ.work.types.kind x ≠ .function := fun x hx =>
      let ⟨_, hp⟩ := σ.types.signature hcallee.lt hs x hx
      ⟨hp.lt, σ.types.kind_plain hp⟩
    obtain ⟨hrlt, hrk⟩ := htypes s.ret List.mem_cons_self
    refine does_typesWith (hasTypes_single hcallee.lt) ?_
    simp only [hs]
    refine does_ite (fun _ => .stop (does_throw rfl)) fun hlen => ?_
    refine (reaches_arguments hargs (fun p hp => htypes p.1 (List.mem_cons_of_mem _ (List.mem_map_of_mem hp)))
      (Decidable.not_not.mp hlen)).bind fun values τ chunk happ hpass => does_irOf (happ.keeps.lt hrlt) ?_
    rw [happ.types.ir hrlt]
    refine (reaches_invoke hsig hpass).bind fun v υ chunk' happ' hv => ?_
    have happ'' := happ.trans happ'
    refine υ.does_immutableOf (happ''.keeps.lt hrlt) fun type hlt hir hk => reaches_pure (hv.isDatum hlt ?_ ?_)
    · rw [hk, happ''.keeps.kind hrlt]
      exact hrk
    · rw [hir, happ''.types.ir hrlt]
  · exact does_mismatch hcallee.lt

end Scene

end Ember
