import Ember.Proofs.Lower.Flow

/-!
# Variables of a function

A variable is a slot that is filled where it is defined. The slot is allocated in the entry, wherever the definition stands; from the
definition on it is known to be filled, and the name of the variable means a place.
-/

namespace Ember

open IR (Interface Grade Grading Ledger Instruction Terminator Register Block BlockId Value Ty)

variable {I : Interface} {params : List Grade}

namespace Spot

/-- A slot was allocated. -/
structure Allots (σ τ : Spot I params) (v : Value) (ty : Ty) : Prop where
  advances : σ.Advances τ
  block : τ.block = σ.block
  types : τ.work.types = σ.work.types
  scopes : τ.work.scopes = σ.work.scopes
  filled : ∀ r, σ.Filled r → τ.Filled r
  holds : ∀ u t, σ.Holds u t → τ.Holds u t
  has : τ.grading.Has v (.address ty)
  slot : ∃ r, v = .register r ∧ τ.function.IsSlot r
  ends : ∀ b B, τ.function.block? b = some B → ∃ B₀, σ.function.block? b = some B₀ ∧ B.terminator = B₀.terminator

end Spot

namespace Scene

open Lowering

variable {σ : Scene I params} {v : Value} {ty : Ty} {loc : Loc}

/-- The workspace is that of a scene where the current block went on. -/
abbrev StaysAt (σ : Scene I params) (w : Workspace) : Prop :=
  ∃ τ : Scene I params, τ.work = w ∧ σ.Stays τ.toSpot

theorem does_slot (σ : Scene I params) (ty : Ty) :
    Does (build (.slot ty)) σ.work fun v w => ∃ τ : Scene I params, τ.work = w ∧ σ.Allots τ.toSpot v ty := by
  obtain ⟨E, slots, rest, hE, hl, hslots, hrest, hblocks⟩ := σ.draft.block?_addSlot ty
  refine does_build (IR.Build.slot_eq σ.cursor.function (by rw [σ.draft.entry]; exact hE) ty) ?_
  -- The current block has its instructions and perhaps the alloca, and it ends as before.
  have hends : ∀ c C, (σ.function.addSlot ty).block? c = some C → ∃ C₀, σ.function.block? c = some C₀ ∧
      C.terminator = C₀.terminator ∧ ∀ j ∈ C₀.instructions, j ∈ C.instructions := by
    intro c C hC
    rw [hblocks] at hC
    split at hC
    · rename_i hc
      cases hC
      refine ⟨E, hc ▸ hE, rfl, fun j hj => ?_⟩
      rw [hl] at hj
      simp only [List.mem_append] at hj ⊢
      tauto
    · exact ⟨C, hC, rfl, fun _ hj => hj⟩
  obtain ⟨C, hC⟩ : ∃ C, (σ.function.addSlot ty).block? σ.block = some C := by
    rw [hblocks]
    split
    · exact ⟨_, rfl⟩
    · exact ⟨_, σ.cursor.here⟩
  obtain ⟨C₀, hC₀, hterm, hsub⟩ := hends _ _ hC
  obtain rfl : σ.content = C₀ := Option.some.inj (σ.cursor.here.symm.trans hC₀)
  have hcont := σ.draft.continues_addSlot ty
  let τ : Spot I params := σ.toSpot.become σ.draft.addSlot hC
  have hadv : σ.Advances τ :=
    { ledger := hcont
      types := .refl _
      promises := fun _ _ => rfl
      builder := rfl
      returns := rfl
      defined := rfl
      others := fun c _ _ h0 => (hblocks c).trans (if_neg h0)
      place := .inl rfl }
  have hfilled : ∀ r, σ.Filled r → τ.Filled r := fun r hr => hr.imp_right fun ⟨j, hj, hg⟩ => ⟨j, hsub j hj, hg⟩
  have hkeeps := hadv.keeps hfilled
  refine ⟨⟨τ, hterm.trans σ.opened, hkeeps.symbols σ.symbols⟩, ?_, hadv, rfl, rfl, rfl, hfilled, fun u t hu => ?_, if_pos rfl,
    ⟨_, rfl, σ.draft.isSlot_addSlot.mpr (.inr rfl)⟩, fun c C hC => ?_⟩
  · show { σ.work with builder := { σ.work.builder.update (σ.function.addSlot ty) with block := some σ.block } } = _
    rw [← σ.cursor.block]
    rfl
  · refine ⟨hkeeps.has (Spot.lt_of_available hu.available) hu.has, fun r hr => ?_⟩
    exact (hu.available r hr).imp (hcont.slot r) fun ⟨j, hj, hd⟩ => ⟨j, hsub j hj, hd⟩
  · obtain ⟨C₀, hC₀, ht, -⟩ := hends c C hC
    exact ⟨C₀, hC₀, ht⟩

/-- A slot is filled. -/
theorem does_fill {r : Register} {u : Value} (hslot : σ.function.IsSlot r) (hv : σ.grading.Has (.register r) (.address ty))
    (hu : σ.Holds u ty) : σ.Reaches (build (.store ty u (.register r))) fun _ τ => τ.function.IsSlot r ∧ τ.Filled r := by
  refine Does.imp (does_emit (i := .store (.register r) u ty) rfl rfl ⟨hv, hu.has⟩ rfl (fun x hx => ?_) nofun)
    fun _ _ ⟨τ, hw, happ⟩ => ⟨τ, _, hw, happ, happ.ledger.slot r hslot, .inr ⟨.store (.register r) u ty, ?_, u, ty, rfl⟩⟩
  · rcases List.mem_pair.mp hx with rfl | rfl
    · exact fun q hq => .inl (by cases hq; exact hslot)
    · exact hu.available
  · rw [happ.done]
    simp

/-- A name is given a meaning. -/
theorem does_bindSymbol {symbol : Symbol} (hs : σ.work.scopes ≠ []) (hm : σ.Means symbol.operand) :
    Does (bind symbol) σ.work fun _ => σ.StaysAt := by
  obtain ⟨scope, outer, hscopes⟩ := List.exists_cons_of_ne_nil hs
  refine does_bind hscopes fun _ => ?_
  have hkeeps := σ.keeps_annotate σ.work.journal ((symbol :: scope) :: outer)
  have hsymbols : ∀ sc ∈ (symbol :: scope) :: outer, ∀ s ∈ sc, (σ.annotate σ.work.journal ((symbol :: scope) :: outer)).Means s.operand := by
    have hold : ∀ sc ∈ scope :: outer, ∀ s ∈ sc, (σ.annotate σ.work.journal ((symbol :: scope) :: outer)).Means s.operand := by
      rw [← hscopes]
      exact hkeeps.symbols σ.symbols
    intro sc hsc s hmem
    rcases List.mem_cons.mp hsc with rfl | hsc
    · rcases List.mem_cons.mp hmem with rfl | hmem
      · exact hm.keeps hkeeps
      · exact hold scope List.mem_cons_self s hmem
    · exact hold sc (List.mem_cons_of_mem _ hsc) s hmem
  exact ⟨⟨σ.annotate σ.work.journal ((symbol :: scope) :: outer), σ.opened, hsymbols⟩, rfl,
    ⟨σ.advances_annotate _ _, fun _ hr => hr, List.cons_ne_nil _ _, by rw [hscopes]; rfl, rfl, fun _ B hB => ⟨B, hB, rfl⟩⟩⟩

variable (σ) {type : TypeId} {binder : Binder} {init : Option Operand}

/-- The type of a variable, which may be changed. -/
theorem does_qualified {α : Type} {k : TypeId → Lowering α} {Q : α → Workspace → Prop}
    (hlt : σ.work.types.Has type) (hk : σ.work.types.kind type ≠ .function) (mutable : Bool)
    (hnext : ∀ (τ : Scene I params) chunk type', σ.Appends τ.toSpot chunk → τ.work.types.Has type' →
      τ.work.types.kind type' ≠ .function → τ.work.types.ir type' = σ.work.types.ir type → Does (k type') τ.work Q) :
    Does (if mutable then mutableOf type >>= k else pure type >>= k) σ.work Q := by
  refine does_ite (fun _ => ?_) fun _ => ?_
  · obtain ⟨hy, -⟩ := σ.types.mutableOf hlt hk
    obtain ⟨τ, happ, hw, -⟩ := σ.exists_retype hy.grown hy.valid
    refine does_of_ok (run_mutableOf.mpr ⟨hasTypes_single hlt, rfl, rfl⟩) (hw ▸ hnext τ [] _ happ ?_ ?_ ?_) <;> rw [hw]
    · exact hy.lt
    · exact hy.kind ▸ hk
    · exact hy.ir
  · exact does_of_ok rfl (hnext σ [] type (.refl _) hlt hk rfl)

/-- A variable gets a slot of its own with a first value, and is then a place. -/
theorem does_place {start : Value} (hs : σ.work.scopes ≠ []) (hlt : σ.work.types.Has type)
    (hk : σ.work.types.kind type ≠ .function) (hstart : σ.Holds start (σ.work.types.ir type)) (mutable : Bool) {α : Type}
    {k : Operand → Lowering α} {Q : α → Workspace → Prop}
    (hnext : ∀ (τ : Scene I params) (x : Operand), σ.Stays τ.toSpot → τ.Means x → Does (k x) τ.work Q) : Does (do
      let slot ← build (.slot (σ.work.types.ir type))
      build (.store (σ.work.types.ir type) start slot)
      let type ← if mutable then mutableOf type else pure type
      k (Operand.place type slot mutable)) σ.work Q := by
  refine (σ.does_slot _).at fun v σ₁ hallots => ?_
  obtain ⟨r, rfl, hslot⟩ := hallots.slot
  have hlt₁ : σ₁.work.types.Has type := hallots.types ▸ hlt
  have hs₁ : σ₁.work.scopes ≠ [] := hallots.scopes ▸ hs
  have hstays₁ : σ.Stays σ₁.toSpot :=
    ⟨hallots.advances, hallots.filled, hs₁, congrArg _ hallots.scopes, hallots.block, hallots.ends⟩
  refine (does_fill hslot hallots.has (hallots.holds _ _ hstart)).does fun _ σ₂ chunk happ ⟨hslot₂, hfilled⟩ => ?_
  have hk₂ : σ₂.work.types.kind type ≠ .function := happ.keeps.kind hlt₁ ▸ hallots.types ▸ hk
  refine σ₂.does_qualified (happ.keeps.lt hlt₁) hk₂ mutable fun σ₃ chunk' type' happ' hlt' hk' hir' => ?_
  have happ₃ := happ.trans happ'
  refine hnext σ₃ _ (hstays₁.trans (stays_of_appends happ₃ hs₁)) (.inl ⟨rfl, hlt', hk', .inl ?_, fun q hq => ?_⟩)
  · have hir : σ₃.work.types.ir type' = σ.work.types.ir type := by rw [hir', happ.types.ir hlt₁, hallots.types]
    show σ₃.grading.Has (.register r) (.address (σ₃.work.types.ir type'))
    rw [hir]
    exact happ₃.keeps.has (fun q hq => by cases hq; exact σ₁.draft.slot_lt hslot) hallots.has
  · cases hq
    exact ⟨happ'.ledger.slot r hslot₂, happ'.keeps.filled r hfilled⟩

/-! ## Definitions -/

/-- The type of a variable: the written one, or that of the first value. -/
theorem does_localType (hb : binder.Declared) (hinit : ∀ x, init = some x → σ.IsRead x) :
    σ.Reaches (localType binder init loc) fun type τ => τ.work.types.Has type := by
  have hwritten : ∀ written, binder.type = some written → σ.Reaches (resolve written) fun type τ => τ.work.types.Has type :=
    fun written hw => (reaches_resolve (hb.type written hw).word).imp fun _ _ _ _ hlt => hlt.1
  have hvalue : ∀ x, init = some x → σ.Reaches (pure x.type) fun type τ => τ.work.types.Has type :=
    fun x hx => reaches_pure (hinit x hx).lt
  unfold localType
  split
  · exact hwritten _ ‹_›
  · exact does_ite (fun _ => hvalue _ rfl) fun _ => hwritten _ ‹_›
  · exact hvalue _ rfl
  · exact does_throw rfl

/-- The first value of a variable. -/
theorem does_localStart (hinit : ∀ x, init = some x → σ.IsRead x) (hs : σ.work.scopes ≠ [])
    (hlt : σ.work.types.Has type) (hk : σ.work.types.kind type ≠ .function) :
    Does (localStart binder init type loc) σ.work fun v w => ∃ τ : Scene I params, τ.work = w ∧ σ.Stays τ.toSpot ∧
      τ.Holds v (σ.work.types.ir type) := by
  unfold localStart
  cases init with
  | some x =>
    refine (reaches_coerce (hinit x rfl) hlt hk).does fun y τ chunk happ ⟨hy, htype⟩ => ?_
    refine does_pure ⟨τ, rfl, stays_of_appends happ hs, ?_⟩
    have hh := hy.holds
    rw [htype, happ.types.ir hlt] at hh
    exact hh
  | none =>
    refine does_warn fun journal => does_irOf (by exact hlt) (does_pure ?_)
    exact ⟨⟨σ.annotate journal σ.work.scopes, σ.opened, (σ.keeps_annotate _ _).symbols σ.symbols⟩, rfl,
      ⟨σ.advances_annotate _ _, fun _ hr => hr, hs, rfl, rfl, fun _ B hB => ⟨B, hB, rfl⟩⟩, ⟨_, rfl⟩, nofun⟩

theorem does_bindLocal (hb : binder.Declared) (hinit : ∀ x, init = some x → σ.IsRead x) (hs : σ.work.scopes ≠ []) :
    Does (bindLocal binder init loc) σ.work fun _ => σ.StaysAt := by
  unfold bindLocal
  refine (σ.does_localType hb hinit).does fun declared σ₁ chunk happ hlt => σ₁.does_immutableOf hlt fun type hlt' _ _ => ?_
  refine does_checkSized hlt' fun hsized => ?_
  have hk : σ₁.work.types.kind type ≠ .function := fun hf => by simp [TypeTable.isSized, TypeKind.isSized, hf] at hsized
  refine does_irOf hlt' ?_
  refine (σ₁.does_localStart (fun x hx => (hinit x hx).appends happ) (stays_of_appends happ hs).inScope hlt' hk).bind fun start w h => ?_
  obtain ⟨σ₂, rfl, hstays, hstart⟩ := h
  have hir : σ₂.work.types.ir type = σ₁.work.types.ir type := hstays.advances.types.ir hlt'
  rw [← hir] at hstart ⊢
  refine σ₂.does_place hstays.inScope (hstays.advances.lt hlt') (hstays.keeps.kind hlt' ▸ hk) hstart binder.mutable
    (k := fun operand => do bind { name := binder.name, operand, loc, isFunction := false }; return operand) fun σ₃ x hstays' hx => ?_
  refine (does_bindSymbol hstays'.inScope hx).bind fun _ w h => does_pure (h.imp fun τ => And.imp_right fun hstays'' => ?_)
  exact (stays_of_appends happ hs).trans (hstays.trans (hstays'.trans hstays''))

/-- A definition of a variable. -/
theorem does_define (hb : binder.Declared) {init : Option Node} (hinit : ∀ n, init = some n → n.IsExpression) (hs : σ.work.scopes ≠ []) :
    Does (expression ⟨loc, .define binder init⟩) σ.work fun _ => σ.StaysAt := by
  rw [expression]
  refine does_checkNotReserved fun _ => Reaches.does (P := fun x τ => ∀ y, x = some y → τ.IsRead y) ?_ fun x σ₁ chunk happ hx => ?_
  · cases init with
    | none =>
      rw [initial]
      exact reaches_pure (by simp)
    | some n =>
      rw [initial]
      exact (reaches_expression (hinit n rfl)).read fun y _ _ _ hy => reaches_pure fun z hz => Option.some.inj hz ▸ hy
  · have hstays := stays_of_appends happ hs
    exact (σ₁.does_bindLocal hb hx hstays.inScope).imp fun _ w => Exists.imp fun τ => And.imp_right hstays.trans

end Scene

end Ember
