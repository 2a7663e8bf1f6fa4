import Ember.Proofs.Lower.Sound
import Ember.Proofs.Typing.Table

/-!
# The function that is being lowered

A `Spot` is a place of a function under construction: a workspace whose cursor stands in a block of a draft. A `Scene` is a spot where
something can still be appended and where every name in scope means something. What an operand of a scene may be is said by `Fits`:
a place with an address, a datum of the representation of its type, or a function to call. Steps of lowering lead from scene to scene;
those of an expression only append to the current block (`Appends`).
-/

namespace Ember

open IR (Interface Grade Grading Ledger Instruction Terminator Register Block BlockId Value Ty)

/-- The grade of a parameter: a `ref` takes an address. -/
def TypeTable.grade (t : TypeTable) (p : TypeId × PassMode) : Grade :=
  if p.2 = .ref then .address (t.ir p.1) else .datum (t.ir p.1)

/-- The grades of the parameters of a function type. -/
def Signature.grades (s : Signature) (t : TypeTable) : List Grade :=
  s.params.map t.grade

/-- A place of a function under construction. -/
structure Spot (I : Interface) (params : List Grade) where
  ledger : Ledger
  work : Workspace
  function : IR.Function
  block : BlockId
  content : Block
  cursor : work.builder.Cursor function block content
  types : work.types.Valid
  draft : function.Draft I params ledger

variable {I : Interface} {params : List Grade}

namespace Spot

/-- The grades of the values of the function. -/
def grading (σ : Spot I params) : Grading :=
  σ.ledger.grading I params

/-- The instructions that were appended to the current block. -/
def done (σ : Spot I params) : List Instruction :=
  σ.content.instructions

/-- The value can be used here. -/
def Available (σ : Spot I params) (v : Value) : Prop :=
  σ.function.Available σ.done v

/-- The slot is filled here. -/
def Filled (σ : Spot I params) (r : Register) : Prop :=
  σ.ledger.FilledAt σ.block σ.done r

/-- The operand is a place: its value is the address of a cell, or a global that may only be read, and a slot of its own was filled. -/
structure IsPlace (σ : Spot I params) (x : Operand) : Prop where
  isPlace : x.isPlace = true
  lt : x.type < σ.work.types.entries.length
  kind : σ.work.types.kind x.type ≠ .function
  has : σ.grading.Has x.value (.address (σ.work.types.ir x.type)) ∨ x.mutable = false ∧ σ.grading.Reads x.value (σ.work.types.ir x.type)
  slot : ∀ r, x.value = .register r → σ.function.IsSlot r ∧ σ.Filled r

/-- The operand is a datum of the representation of its type. -/
structure IsDatum (σ : Spot I params) (x : Operand) : Prop where
  isPlace : x.isPlace = false
  lt : x.type < σ.work.types.entries.length
  kind : σ.work.types.kind x.type ≠ .function
  has : σ.grading.Has x.value (.datum (σ.work.types.ir x.type))
  available : σ.Available x.value

/-- The operand is a function, whose type has the signature of the interface. -/
structure IsCallee (σ : Spot I params) (x : Operand) : Prop where
  isPlace : x.isPlace = false
  lt : x.type < σ.work.types.entries.length
  kind : σ.work.types.kind x.type = .function
  callee : ∀ s, (σ.work.types.entry x.type).signature? = some s → ∃ name, x.value = .function name ∧
    I.signature? name = some (s.grades σ.work.types, σ.work.types.ir s.ret)

/-- What an operand may be. -/
def Fits (σ : Spot I params) (x : Operand) : Prop :=
  σ.IsPlace x ∨ σ.IsDatum x ∨ σ.IsCallee x

/-- What a name may mean. -/
def Means (σ : Spot I params) (x : Operand) : Prop :=
  σ.IsPlace x ∨ σ.IsCallee x

end Spot

/-- A spot where the current block is open and every name means something. -/
structure Scene (I : Interface) (params : List Grade) extends Spot I params where
  opened : content.terminator = none
  symbols : ∀ scope ∈ work.scopes, ∀ s ∈ scope, toSpot.Means s.operand

namespace Spot

variable {σ τ : Spot I params} {x : Operand} {v : Value} {g : Grade}

/-- What carries over from one spot to another: the function is continued, the types stay, and what was filled is. -/
structure Keeps (σ τ : Spot I params) : Prop where
  ledger : σ.ledger.Continues σ.function τ.ledger τ.function
  types : σ.work.types.Extends τ.work.types
  filled : ∀ r, σ.Filled r → τ.Filled r

theorem Keeps.refl (σ : Spot I params) : σ.Keeps σ :=
  ⟨.refl _ _, .refl _, fun _ h => h⟩

section

variable (h : σ.Keeps τ)
include h

theorem Keeps.trans {υ : Spot I params} (h' : τ.Keeps υ) : σ.Keeps υ :=
  ⟨h.ledger.trans h'.ledger, h.types.trans h'.types, fun r hr => h'.filled r (h.filled r hr)⟩

omit h in
theorem lt_of_available (h : σ.Available v) (r : Register) (hr : v = .register r) : r < σ.function.registers.size :=
  σ.draft.lt_of_available σ.cursor.here (fun _ hj => hj) (hr ▸ h)

variable {id : TypeId} {chunk : List Instruction}

theorem Keeps.kind (hid : σ.work.types.Has id) : τ.work.types.kind id = σ.work.types.kind id :=
  h.types.kind σ.types.ordered τ.types.ordered hid

theorem Keeps.lt (hid : σ.work.types.Has id) : τ.work.types.Has id :=
  Nat.lt_of_lt_of_le hid h.types.length_le

theorem Keeps.has (hlt : ∀ r, v = .register r → r < σ.function.registers.size) (hv : σ.grading.Has v g) : τ.grading.Has v g :=
  h.ledger.has hlt hv

omit h in
theorem IsPlace.reads (hx : σ.IsPlace x) : σ.grading.Reads x.value (σ.work.types.ir x.type) :=
  hx.has.elim .inl (·.2)

omit h in
/-- A place that may be assigned has an address. -/
theorem IsPlace.address (hx : σ.IsPlace x) (hm : x.mutable = true) : σ.grading.Has x.value (.address (σ.work.types.ir x.type)) :=
  hx.has.resolve_right fun h => by simp [hm] at h

/-- A place stays a place. -/
theorem IsPlace.keeps (hx : σ.IsPlace x) : τ.IsPlace x where
  isPlace := hx.isPlace
  lt := h.lt hx.lt
  kind := by rw [h.kind hx.lt]; exact hx.kind
  has := by
    rw [h.types.ir hx.lt]
    have hhas (g : Grade) : σ.grading.Has x.value g → τ.grading.Has x.value g := h.has fun r hr => σ.draft.slot_lt (hx.slot r hr).1
    exact hx.has.imp (hhas _) (And.imp_right fun hread => hread.map (σ := id) rfl (fun _ _ => rfl) hhas)
  slot := fun r hr => ⟨h.ledger.slot r (hx.slot r hr).1, h.filled r (hx.slot r hr).2⟩

/-- The types of a signature stay what they were. -/
theorem Keeps.signature (hid : σ.work.types.Has id) {s : Signature} (hs : (τ.work.types.entry id).signature? = some s) :
    (σ.work.types.entry id).signature? = some s ∧
      s.grades τ.work.types = s.grades σ.work.types ∧ τ.work.types.ir s.ret = σ.work.types.ir s.ret := by
  rw [h.types.entry hid] at hs
  have htypes := σ.types.signature hid hs
  have hir : ∀ x ∈ s.types, τ.work.types.ir x = σ.work.types.ir x := fun x hx => h.types.ir (Nat.lt_trans (htypes x hx).1 hid)
  refine ⟨hs, List.map_congr_left fun x hx => ?_, hir s.ret List.mem_cons_self⟩
  rw [TypeTable.grade, TypeTable.grade, hir x.1 (List.mem_cons_of_mem _ (List.mem_map_of_mem hx))]

/-- A function stays a function. -/
theorem IsCallee.keeps (hx : σ.IsCallee x) : τ.IsCallee x where
  isPlace := hx.isPlace
  lt := h.lt hx.lt
  kind := by rw [h.kind hx.lt]; exact hx.kind
  callee := fun s hs => by
    obtain ⟨hs', hgrades, hret⟩ := h.signature hx.lt hs
    rw [hgrades, hret]
    exact hx.callee s hs'

/-- A name keeps its meaning. -/
theorem Means.keeps (hx : σ.Means x) : τ.Means x :=
  hx.imp (·.keeps h) (·.keeps h)

omit h in
theorem Means.fits (hx : σ.Means x) : σ.Fits x :=
  hx.imp_right .inr

/-- A datum stays a datum where its value can still be used. -/
theorem IsDatum.keeps (hx : σ.IsDatum x) (ha : τ.Available x.value) : τ.IsDatum x where
  isPlace := hx.isPlace
  lt := h.lt hx.lt
  kind := by rw [h.kind hx.lt]; exact hx.kind
  has := by
    rw [h.types.ir hx.lt]
    exact h.has (lt_of_available hx.available) hx.has
  available := ha

end

/-- What was done between two spots is to append instructions to the current block, and to enter types. -/
structure Appends (σ τ : Spot I params) (chunk : List Instruction) : Prop where
  ledger : σ.ledger.Continues σ.function τ.ledger τ.function
  promises : τ.ledger.filled = σ.ledger.filled
  types : σ.work.types.Extends τ.work.types
  work : τ.work = { σ.work with types := τ.work.types, builder := σ.work.builder.update τ.function }
  block : τ.block = σ.block
  content : τ.content = { σ.content with instructions := σ.content.instructions ++ chunk }
  others : ∀ b ≠ σ.block, τ.function.block? b = σ.function.block? b

theorem Appends.refl (σ : Spot I params) : σ.Appends σ [] :=
  ⟨.refl _ _, rfl, .refl _, by rw [IR.Builder.update_self σ.cursor.function], rfl, by simp, fun _ _ => rfl⟩

variable (h : σ.Appends τ chunk)
include h

theorem Appends.trans {υ : Spot I params} {chunk' : List Instruction} (h' : τ.Appends υ chunk') : σ.Appends υ (chunk ++ chunk') where
  ledger := h.ledger.trans h'.ledger
  promises := h'.promises.trans h.promises
  types := h.types.trans h'.types
  work := by rw [h'.work, h.work, IR.Builder.update_update]
  block := h'.block.trans h.block
  content := by rw [h'.content, h.content, List.append_assoc]
  others := fun b hb => (h'.others b (h.block ▸ hb)).trans (h.others b hb)

theorem Appends.done : τ.done = σ.done ++ chunk := by
  rw [Spot.done, h.content]
  rfl

theorem Appends.keeps : σ.Keeps τ where
  ledger := h.ledger
  types := h.types
  filled := fun r hr => by
    have := hr.append chunk
    rw [Spot.Filled, h.done, h.block]
    exact this.imp_left fun hf => h.promises ▸ hf

theorem Appends.available (hv : σ.Available v) : τ.Available v := by
  rw [Spot.Available, h.done]
  exact (hv.append chunk).mono h.ledger.slot

/-- An operand stays what it is when more is appended. -/
theorem Fits.appends (hx : σ.Fits x) : τ.Fits x := by
  rcases hx with hx | hx | hx
  · exact .inl (hx.keeps h.keeps)
  · exact .inr (.inl (hx.keeps h.keeps (h.available hx.available)))
  · exact .inr (.inr (hx.keeps h.keeps))

theorem IsDatum.appends (hx : σ.IsDatum x) : τ.IsDatum x :=
  hx.keeps h.keeps (h.available hx.available)

end Spot

namespace Scene

variable (σ : Scene I params)

/-- A scene where instructions were appended and types entered. -/
theorem exists_append {k : Ledger} {f : IR.Function} {t : TypeTable} {chunk : List Instruction} (hd : f.Draft I params k)
    (hc : σ.ledger.Continues σ.function k f) (hp : k.filled = σ.ledger.filled)
    (hC : f.block? σ.block = some { σ.content with instructions := σ.content.instructions ++ chunk })
    (ho : ∀ b ≠ σ.block, f.block? b = σ.function.block? b) (ht : σ.work.types.Extends t) (hv : t.Valid) :
    ∃ τ : Scene I params, σ.Appends τ.toSpot chunk ∧
      τ.work = { σ.work with types := t, builder := σ.work.builder.update f } ∧ τ.ledger = k ∧ τ.function = f := by
  let τ : Spot I params :=
    { ledger := k, work := { σ.work with types := t, builder := σ.work.builder.update f }, function := f, block := σ.block,
      content := { σ.content with instructions := σ.content.instructions ++ chunk },
      cursor := σ.cursor.update hC, types := hv, draft := hd }
  have happ : σ.Appends τ chunk := ⟨hc, hp, ht, rfl, rfl, rfl, ho⟩
  exact ⟨⟨τ, σ.opened, fun scope hs s hm => (σ.symbols scope hs s hm).keeps happ.keeps⟩, happ, rfl, rfl, rfl⟩

/-- Entering types appends nothing. -/
theorem exists_retype {t : TypeTable} (ht : σ.work.types.Extends t) (hv : t.Valid) :
    ∃ τ : Scene I params, σ.Appends τ.toSpot [] ∧ τ.work = { σ.work with types := t } ∧ τ.function = σ.function := by
  have hC : σ.function.block? σ.block = some { σ.content with instructions := σ.content.instructions ++ [] } := by
    simpa using σ.cursor.here
  obtain ⟨τ, happ, hw, -, hf⟩ := σ.exists_append σ.draft (.refl _ _) rfl hC (fun _ _ => rfl) ht hv
  exact ⟨τ, happ, by rw [hw, IR.Builder.update_self σ.cursor.function], hf⟩

variable {σ}

/-- An instruction without a destination is appended. -/
theorem does_emit {i : Instruction} (hphi : i.isPhi = false) (halloca : i.isAlloca = false) (htyped : σ.grading.Types i)
    (hdest : i.dest? = none) (hoperands : ∀ v ∈ i.operands, σ.Available v)
    (hreading : ∀ r, .register r ∈ i.reading → σ.function.IsSlot r → σ.Filled r) :
    Lowering.Does (Lowering.build (.emit i)) σ.work fun _ w => ∃ τ : Scene I params, τ.work = w ∧ σ.Appends τ.toSpot [i] := by
  refine Lowering.does_build (IR.Build.emit_eq σ.cursor σ.opened i) ?_
  have hd := σ.draft.emit σ.cursor.here σ.opened hphi halloca htyped (by simp [hdest]) hoperands hreading
  obtain ⟨τ, happ, hw, -⟩ := σ.exists_append hd (IR.Function.continues_emit σ.cursor.here _ halloca) rfl
    ((IR.Function.block?_emit σ.cursor.here _).trans (if_pos rfl))
    (fun b hb => (IR.Function.block?_emit σ.cursor.here b).trans (if_neg hb)) (.refl _) σ.types
  exact ⟨τ, hw, happ⟩

/-- An instruction that sets a new register is appended; its typing may use that the register has its grade. -/
theorem does_emitTo {type : Ty} {i : Register → Instruction} (g : Grade) (hdest : ∀ r, (i r).dest? = some r)
    (hphi : ∀ r, (i r).isPhi = false) (halloca : ∀ r, (i r).isAlloca = false)
    (htyped : ∀ (γ : Grading) r, γ.interface = I → γ.register r = g →
      (∀ v g, v ∈ (i r).operands → σ.grading.Has v g → γ.Has v g) → γ.Types (i r)) (hoperands : ∀ r, ∀ v ∈ (i r).operands, σ.Available v)
    (hreading : ∀ q r, .register r ∈ (i q).reading → σ.function.IsSlot r → σ.Filled r) :
    Lowering.Does (Lowering.build (.define type i)) σ.work fun v w => ∃ τ : Scene I params, τ.work = w ∧
      σ.Appends τ.toSpot [i σ.function.registers.size] ∧ τ.grading.Has v g ∧ τ.Available v := by
  refine Lowering.does_build (IR.Build.define_eq σ.cursor σ.opened type i) ?_
  have hc₁ := IR.Function.continues_addRegister σ.ledger σ.function type g
  have hd₁ := σ.draft.addRegister type g
  have hhere : (σ.function.addRegister type).2.block? σ.block = some σ.content := σ.cursor.here
  have hd := hd₁.emit hhere σ.opened (hphi _) (halloca σ.function.registers.size)
    (htyped _ _ rfl (if_pos rfl) fun v g hv hg => hc₁.has (Spot.lt_of_available (hoperands _ v hv)) hg)
    (fun r hr => by
      obtain rfl := Option.some.inj ((hdest _).symm.trans hr)
      exact ⟨by simp [IR.Function.addRegister], fun j hj hjr => Nat.lt_irrefl _ (σ.draft.sized hj hjr)⟩)
    (fun v hv => hoperands _ v hv) (fun r hr hs => hreading _ r hr hs)
  obtain ⟨τ, happ, hw, hk, hf⟩ := σ.exists_append hd (hc₁.trans (IR.Function.continues_emit hhere _ (halloca _))) rfl
    ((IR.Function.block?_emit hhere _).trans (if_pos rfl))
    (fun b hb => (IR.Function.block?_emit hhere b).trans (if_neg hb)) (.refl _) σ.types
  refine ⟨τ, hw, happ, ?_, fun r hr => ?_⟩
  · rw [Spot.grading, hk]
    exact if_pos rfl
  · cases hr
    exact .inr ⟨_, by rw [happ.done]; simp, hdest _⟩

end Scene

end Ember
