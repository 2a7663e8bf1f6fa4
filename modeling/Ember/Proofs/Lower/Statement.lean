import Ember.Proofs.Lower.Local

/-!
# Lowering statements

A statement that is lowered leaves the function a draft: one block at most is open that was not, every edge keeps the promise about the
block where it leads, and what was filled is filled. So the blocks of a body can be closed one after the other, in whatever way
statements stand in one another.
-/

namespace Ember

open IR (Interface Grade Grading Ledger Instruction Terminator Register Block BlockId Value Ty)

variable {I : Interface} {params : List Grade}

/-- The function returns a type that is no function. -/
structure Spot.Returns (σ : Spot I params) (type : TypeId) : Prop where
  returns : σ.work.returns = some type
  lt : type < σ.work.types.entries.length
  kind : σ.work.types.kind type ≠ .function
  ret : σ.function.ret = σ.work.types.ir type

theorem Spot.Returns.advances {σ τ : Spot I params} {type : TypeId} (h : σ.Returns type) (ha : σ.Advances τ) : τ.Returns type where
  returns := ha.returns.trans h.returns
  lt := ha.lt h.lt
  kind := by rw [ha.types.kind σ.types.ordered τ.types.ordered h.lt]; exact h.kind
  ret := by rw [ha.ledger.ret, h.ret, ha.types.ir h.lt]

/-- The workspace is that of a spot that a statement leads to, with the same names in scope. -/
abbrev Spot.LeadsTo (σ : Spot I params) (w : Workspace) : Prop :=
  ∃ τ : Spot I params, τ.work = w ∧ σ.Leads τ ∧ τ.work.scopes = σ.work.scopes

namespace Scene

open Lowering

variable {σ : Scene I params} {loc : Loc} {type : TypeId}

/-- What lowering a statement does in any scene. -/
def Lowers (I : Interface) (params : List Grade) (n : Node) : Prop :=
  ∀ (σ : Scene I params) (type : TypeId), σ.Returns type → σ.work.scopes ≠ [] →
    Does (statement n) σ.work fun _ w => ∃ τ : Spot I params, τ.work = w ∧ σ.Leads τ ∧
      (n.definesName = false → τ.work.scopes = σ.work.scopes)

/-! ## Expressions -/

variable {n cond body : Node} {init : Option Node} {τ : Spot I params}

theorem reaches_condition (hn : n.IsExpression) : σ.Reaches (condition n) fun v τ => τ.Holds v .bool := by
  refine (reaches_expression hn).read fun x σ₁ _ _ hx => ?_
  refine (reaches_cast hx (bool_lt _ .bool) (by simp [σ₁.types.kind_primitive]) (by simp)).then fun y τ _ _ ⟨hy, htype⟩ => ?_
  have hh := hy.holds
  rw [htype, τ.types.ir_primitive] at hh
  exact hh

/-- An expression, or the definition of a variable. -/
theorem does_simple (σ : Scene I params) (hn : n.IsSimple) (hs : σ.work.scopes ≠ []) :
    Does (discard (expression n)) σ.work fun _ w => ∃ τ : Scene I params, τ.work = w ∧ σ.Stays τ.toSpot ∧
      (n.definesName = false → τ.work.scopes = σ.work.scopes) := by
  cases hn with
  | value hn =>
    refine Does.discard (reaches_expression hn.expression) fun o w ⟨τ, chunk, hw, happ, _⟩ =>
      ⟨τ, hw, stays_of_appends happ hs, fun _ => ?_⟩
    rw [happ.work]
  | define hb hinit =>
    exact (σ.does_define hb (fun e he => (hinit e he).expression) hs).discard fun _ w ⟨τ, hw, hstays⟩ => ⟨τ, hw, hstays, nofun⟩

/-- A simple statement is lowered as an expression. -/
theorem statement_simple (hn : n.IsSimple) : statement n = discard (expression n) := by
  cases hn with
  | define => rfl
  | value hn =>
    cases hn.expression with
    | @literal loc form h => cases form <;> first | rfl | cases h
    | _ => rfl

theorem lowers_define {binder : Binder} (hb : binder.Declared) (hinit : ∀ n, init = some n → n.IsValue) :
    Lowers I params ⟨loc, .define binder init⟩ := by
  intro σ type _ hs
  exact (σ.does_simple (.define hb hinit) hs).imp fun _ _ ⟨τ, hw, hstays, hscopes⟩ => ⟨τ.toSpot, hw, leads_of_stays hstays, hscopes⟩

/-! ## Scopes -/

/-- A scope is opened. -/
def entered (σ : Scene I params) : Scene I params where
  toSpot := σ.annotate σ.work.journal σ.work.scopes.enter
  opened := σ.opened
  symbols := by
    intro scope hscope s hmem
    rcases List.mem_cons.mp hscope with rfl | hscope
    · cases hmem
    · exact (σ.symbols scope hscope s hmem).keeps (σ.keeps_annotate _ _)

/-- A scope is closed. -/
theorem leads_left {σ : Spot I params} {journal : Journal} (hs : σ.work.scopes ≠ [])
    (h : (σ.annotate journal σ.work.scopes.enter).Leads τ) :
    σ.Leads (τ.annotate τ.work.journal τ.work.scopes.leave) ∧ τ.work.scopes.leave = σ.work.scopes := by
  have hscopes : τ.work.scopes.leave = σ.work.scopes := h.outer
  refine ⟨⟨((σ.advances_annotate _ _).trans h.advances).trans (τ.advances_annotate _ _), h.filled, hscopes ▸ hs, congrArg _ hscopes, ?_,
    fun R hR => ?_⟩, hscopes⟩
  · exact (τ.keeps_annotate _ _).symbols fun scope hscope => h.symbols scope (List.mem_of_mem_tail hscope)
  · exact (h.pending R (hR.of_eq rfl)).of_eq rfl

/-- Statements are lowered one after the other, up to one that is never executed. -/
theorem does_statementList {stmts : List Node} (hstmts : ∀ n ∈ stmts, Lowers I params n) (σ : Spot I params) (hret : σ.Returns type)
    (hs : σ.work.scopes ≠ []) (hsymbols : ∀ scope ∈ σ.work.scopes, ∀ s ∈ scope, σ.Means s.operand) :
    Does (statementList stmts) σ.work fun _ w => ∃ τ : Spot I params, τ.work = w ∧ σ.Leads τ := by
  have hhere : σ.Leads σ := ⟨.refl _, fun _ hr => hr, hs, rfl, hsymbols, fun _ hR => hR⟩
  induction stmts generalizing σ with
  | nil =>
    rw [statementList]
    exact does_pure ⟨σ, rfl, hhere⟩
  | cons n stmts ih =>
    rw [statementList]
    refine does_of_ok (run_isTerminated σ) (does_ite (fun _ => does_modify ?_) fun hopen => ?_)
    · exact ⟨σ.annotate _ σ.work.scopes, rfl, ⟨σ.advances_annotate _ _, fun _ hr => hr, hs, rfl,
        (σ.keeps_annotate _ _).symbols hsymbols, fun _ hR => hR.of_eq rfl⟩⟩
    · have hopen : σ.content.terminator = none := by simpa using hopen
      refine (hstmts n List.mem_cons_self ⟨σ, hopen, hsymbols⟩ type hret hs).at fun _ τ ⟨hlead, _⟩ => ?_
      have hlead : σ.Leads τ := hlead
      refine (ih (fun m hm => hstmts m (List.mem_cons_of_mem _ hm)) τ (hret.advances hlead.advances) hlead.inScope hlead.symbols
        ⟨.refl _, fun _ hr => hr, hlead.inScope, rfl, hlead.symbols, fun _ hR => hR⟩).imp fun _ w ⟨υ, hw, hlead'⟩ => ?_
      exact ⟨υ, hw, hlead.trans hlead'⟩

theorem lowers_block {stmts : List Node} (hstmts : ∀ n ∈ stmts, Lowers I params n) : Lowers I params ⟨loc, .block stmts⟩ := by
  intro σ type hret hs
  rw [statement]
  refine does_of_ok (v := σ.entered.work) rfl ?_
  refine (does_statementList hstmts σ.entered.toSpot (hret.advances (σ.advances_annotate _ _)) (List.cons_ne_nil _ _)
    σ.entered.symbols).at fun _ τ hlead => ?_
  obtain ⟨hlead', hscopes⟩ := leads_left hs hlead
  exact does_modify ⟨τ.annotate τ.work.journal τ.work.scopes.leave, rfl, hlead', fun _ => hscopes⟩

/-! ## Returns -/

theorem Ends.leads (h : Ends σ.toSpot τ) (hs : σ.work.scopes ≠ []) : σ.Leads τ where
  advances := h.advances
  filled := fun r => (h.filled r).mpr
  inScope := h.scopes ▸ hs
  outer := congrArg _ h.scopes
  symbols := h.scopes ▸ h.keeps.symbols σ.symbols
  pending := fun R hR => (h.pending R hR).mono (Set.subset_insert _ _)

/-- Only a value without content is accepted where there is none. -/
theorem does_coerce_void {x : Operand} {Q : Operand → Workspace → Prop} (hx : σ.IsRead x) (ht : σ.work.types.Has type)
    (hv : σ.work.types.isVoid type = true) (hne : σ.work.types.isVoid x.type ≠ true) : Does (coerce x type loc) σ.work Q := by
  refine Does.bind (Q := fun y w => y = x ∧ w = σ.work) ?_ fun y w ⟨hy, hw⟩ => ?_
  · refine does_ite (fun _ => does_pure ⟨rfl, rfl⟩) fun _ => σ.does_immutableOf ht fun type' hlt _ hk => ?_
    refine does_typesWith (hasTypes_single hlt) ?_
    have hnone : (σ.work.types.kind type').adapt? (σ.work.types.ir type') x.value = none := by
      rw [hk]
      rw [TypeTable.isVoid] at hv
      unfold TypeKind.adapt?
      cases hkind : σ.work.types.kind type with
      | primitive p =>
        rw [hkind] at hv
        cases p <;> simp [TypeKind.isVoid, TypeKind.isIntegral, TypeKind.isFloating, Primitive.isIntegral, Primitive.isFloating] at hv ⊢
        split <;> rfl
      | _ =>
        rw [hkind] at hv
        cases hv
    rw [hnone]
    exact does_pure ⟨rfl, rfl⟩
  · subst hy hw
    refine does_typesWith (hasTypes_pair hx.lt ht) (does_ite (fun _ => does_mismatchAt ht hx.lt) fun hacc => absurd ?_ hne)
    obtain ⟨-, hkind, -⟩ := σ.types.alike hx.lt ht (TypeTable.alike_of_accepts (by simpa using hacc))
    rwa [TypeTable.isVoid, hkind]

/-- A function returns nothing if its type says so. -/
theorem isVoid_iff (σ : Scene I params) (hret : σ.Returns type) : σ.work.types.isVoid type = true ↔ σ.function.ret = .void := by
  rw [hret.ret, TypeTable.isVoid]
  rcases σ.types.kind_cases hret.lt with ⟨p, hk, hir⟩ | ⟨hk, -⟩
  · rw [hk, hir, Primitive.ir_eq_void]
    cases p <;> simp [TypeKind.isVoid]
  · exact absurd hk hret.kind

theorem does_returnValue (σ : Scene I params) (value : Option Operand) (hvalue : ∀ x, value = some x → σ.IsRead x)
    (hret : σ.Returns type) (hs : σ.work.scopes ≠ []) : Does (returnValue value loc) σ.work fun _ => σ.LeadsTo := by
  have hvoid := σ.isVoid_iff hret
  have hnone : σ.work.types.isVoid type = true → Does (build (.ret none)) σ.work fun _ => σ.LeadsTo := fun hv =>
    (σ.does_terminate (t := .ret none) ⟨hvoid.mp hv, nofun, nofun⟩ nofun).imp
      fun _ _ ⟨τ, hw, hends, _⟩ => ⟨τ, hw, hends.leads hs, hends.scopes⟩
  refine does_of_ok rfl ?_
  rw [hret.returns]
  dsimp only
  have htypes : HasTypes σ.work (type :: (value.map (·.type)).toList) := by
    intro id hid
    rcases List.mem_cons.mp hid with rfl | hid
    · exact hret.lt
    · cases value with
      | none => cases hid
      | some x =>
        obtain rfl := List.mem_singleton.mp hid
        exact (hvalue x rfl).lt
  refine does_typesWith htypes ?_
  cases value with
  | none => exact does_ite hnone fun _ => does_throw rfl
  | some x =>
    have hx := hvalue x rfl
    refine does_ite (fun hv => hnone (Bool.and_eq_true_iff.mp hv).1) fun hv => ?_
    by_cases hne : σ.function.ret = .void
    · have hv' := hvoid.mpr hne
      exact (does_coerce_void hx hret.lt hv' fun hx' => hv (by rw [hv', hx']; rfl)).stop
    · refine (reaches_coerce hx hret.lt hret.kind).does fun y σ₁ chunk happ ⟨hy, htype⟩ => ?_
      have hh := hy.holds
      rw [htype, happ.types.ir hret.lt, ← hret.ret, ← happ.ledger.ret] at hh
      have hscopes : σ₁.work.scopes = σ.work.scopes := by rw [happ.work]
      refine (σ₁.does_terminate (t := .ret (some y.value)) ⟨⟨happ.ledger.ret ▸ hne, hh.has⟩, fun v hv => List.mem_singleton.mp hv ▸ hh.available,
        nofun⟩ nofun).imp fun _ _ ⟨τ, hw, hends, _⟩ => ⟨τ, hw, ?_, hends.scopes.trans hscopes⟩
      exact (leads_of_stays (stays_of_appends happ hs)).trans (hends.leads (hscopes ▸ hs))

theorem lowers_ret {value : Option Node} (hvalue : ∀ n, value = some n → n.IsExpression) : Lowers I params ⟨loc, .ret value⟩ := by
  intro σ type hret hs
  rw [statement]
  unfold returnStatement
  refine does_of_ok rfl ?_
  rw [hret.returns]
  have hnone : Does (returnValue none loc) σ.work fun _ w => ∃ τ : Spot I params, τ.work = w ∧ σ.Leads τ ∧
      (Node.definesName ⟨loc, .ret value⟩ = false → τ.work.scopes = σ.work.scopes) :=
    (σ.does_returnValue none (fun _ h => nomatch h) hret hs).imp fun _ _ ⟨τ, hw, hlead, hscopes⟩ => ⟨τ, hw, hlead, fun _ => hscopes⟩
  refine does_ite (fun h => nomatch h) fun _ => ?_
  split
  · exact hnone
  · exact hnone
  · rename_i n _
    have hn := hvalue n rfl
    refine (reaches_expression hn).does fun o σ₁ _ happ ho => (reaches_read ho).does fun x σ₂ _ happ₁ ⟨hx, _⟩ => ?_
    have happ₂ := happ.trans happ₁
    have hscopes : σ₂.work.scopes = σ.work.scopes := by rw [happ₂.work]
    refine (σ₂.does_returnValue (some x) (fun y hy => by cases hy; exact hx) (hret.advances happ₂.advances) (hscopes ▸ hs)).imp
      fun _ _ ⟨τ, hw, hlead, hscopes'⟩ => ⟨τ, hw, ?_, fun _ => hscopes'.trans hscopes⟩
    exact (leads_of_stays (stays_of_appends happ₂ hs)).trans hlead

/-! ## Control flow -/

/-- A block that waited, at `σ`, was entered and closed, and what other blocks wait for stands. Names mean what they meant at `ρ`. -/
structure Closes (base : Spot I params) (ρ : Scene I params) (σ τ : Spot I params) (b : BlockId) : Prop where
  advances : base.Advances τ
  precedes : ρ.Precedes τ
  scopes : τ.work.scopes = ρ.work.scopes
  pending : ∀ R, σ.Pending (insert b R) → τ.Pending R
  waits : ∀ c F, c ≠ b → σ.Waits c F → τ.Waits c F
  promises : ∀ c F, σ.Promises c F → τ.Promises c F

/-- A block that was made behind `base` waits: names mean there what they meant at `ρ`, and what was filled there is filled. -/
structure Awaits (base : Spot I params) (ρ : Scene I params) (σ : Spot I params) (b : BlockId) : Prop where
  advances : base.Advances σ
  precedes : ρ.Precedes σ
  scopes : σ.work.scopes = ρ.work.scopes
  inScope : ρ.work.scopes ≠ []
  new : base.function.blocks.length ≤ b
  waits : σ.Waits b ρ.Filled

/-- Blocks were made one after the other, the last in front. They wait, no edge leads to them, and the spot is where it was. -/
structure Lays (σ τ : Scene I params) (bs : List BlockId) : Prop where
  advances : σ.Advances τ.toSpot
  block : τ.block = σ.block
  content : τ.content = σ.content
  filled : ∀ r, σ.Filled r → τ.Filled r
  scopes : τ.work.scopes = σ.work.scopes
  new : ∀ b ∈ bs, σ.function.blocks.length ≤ b
  ordered : bs.Pairwise (· > ·)
  waits : ∀ b ∈ bs, τ.Waits b σ.Filled
  untargeted : ∀ b ∈ bs, τ.Untargeted b
  pending : ∀ R, σ.Pending (insert σ.block R) → τ.Pending (insert τ.block ({b | b ∈ bs} ∪ R))

section Segments

variable {α : Type} {k : Lowering α} {Q : α → Workspace → Prop} {base σ : Spot I params} {ρ : Scene I params} {b c next : BlockId}
  {bs : List BlockId} {F : Register → Prop} {n : Node}

theorem Lays.refl (σ : Scene I params) : Lays σ σ [] :=
  ⟨.refl _, rfl, rfl, fun _ hr => hr, rfl, nofun, .nil, nofun, nofun, fun _ hR => hR.mono (Set.insert_subset_insert Set.subset_union_right)⟩

theorem Lays.append {σ τ : Scene I params} {label : String} {k : BlockId → Lowering α} (h : Lays σ τ bs)
    (hk : ∀ id υ, Lays σ υ (id :: bs) → Does (k id) υ.work Q) : Does (do let id ← build (.appendBlock label); k id) τ.work Q := by
  refine (τ.does_appendBlock label σ.Filled).at fun id υ ho => ?_
  have hlt : ∀ b ∈ bs, b < id := fun b hb => ho.id_eq ▸ (h.waits b hb).lt
  refine hk id υ ⟨h.advances.trans ho.advances, ho.block.trans h.block, ho.content.trans h.content,
    fun r hr => (ho.filled r).mpr (h.filled r hr), ho.scopes.trans h.scopes, ?_, .cons hlt h.ordered, ?_, ?_, fun R hR => ?_⟩
  · exact List.forall_mem_cons.mpr ⟨ho.id_eq ▸ h.advances.ledger.length, h.new⟩
  · refine List.forall_mem_cons.mpr ⟨ho.waits, fun b hb => (h.waits b hb).advances ho.advances ?_⟩
    rw [h.block]
    exact Nat.ne_of_gt (Nat.lt_of_lt_of_le σ.block_lt (h.new b hb))
  · exact List.forall_mem_cons.mpr ⟨ho.untargeted _ (Spot.untargeted_of_le ho.id_eq.ge), fun b hb => ho.untargeted b (h.untargeted b hb)⟩
  · refine (ho.pending _ (h.pending R hR)).mono fun b hb => ?_
    simp only [Set.mem_insert_iff, Set.mem_union, Set.mem_ofPred_eq, List.mem_cons, ho.block] at hb ⊢
    tauto

theorem Lays.holds {σ τ : Scene I params} {v : Value} {ty : Ty} (h : Lays σ τ bs) (hv : σ.Holds v ty) : τ.Holds v ty := by
  refine ⟨(h.advances.keeps h.filled).has (Spot.lt_of_available hv.available) hv.has, ?_⟩
  have hav := hv.available
  rw [Spot.Available, Spot.done, ← h.content] at hav
  exact hav.mono h.advances.ledger.slot

/-- The blocks still wait when the block before them is closed. -/
theorem Lays.awaits {τ : Scene I params} (h : Lays ρ τ bs) (hends : Ends τ.toSpot σ) (hs : ρ.work.scopes ≠ []) :
    ∀ b ∈ bs, Awaits ρ.toSpot ρ σ b := by
  intro b hb
  have hadv := h.advances.trans hends.advances
  refine ⟨hadv, hadv.precedes, hends.scopes.trans h.scopes, hs, h.new b hb, (h.waits b hb).advances hends.advances ?_⟩
  rw [h.block]
  exact Nat.ne_of_gt (Nat.lt_of_lt_of_le ρ.block_lt (h.new b hb))

/-- Another block still waits. -/
theorem Closes.awaits {τ : Spot I params} (h : Closes base ρ σ τ b) (hc : Awaits base ρ σ c) (hne : c ≠ b) : Awaits base ρ τ c :=
  ⟨h.advances, h.precedes, h.scopes, hc.inScope, hc.new, h.waits c _ hne hc.waits⟩

/-- A block that waits is entered, and closed behind what is done in it. -/
theorem does_within {m : Lowering α} (h : Awaits base ρ σ b) (hk : ∀ τ : Spot I params, Closes base ρ σ τ b → Does k τ.work Q)
    (hm : ∀ σ₁ : Scene I params, base.Advances σ₁.toSpot → (∀ c F, σ.Promises c F → σ₁.Promises c F) →
      (∀ r, ρ.Filled r → σ₁.Filled r) → σ₁.work.scopes ≠ [] →
      (∀ σ₂ τ : Spot I params, σ₁.Leads σ₂ → σ₂.work.scopes = σ₁.work.scopes → Ends σ₂ τ → Does k τ.work Q) → Does m σ₁.work Q) :
    Does (do build (.moveTo b); m) σ.work Q := by
  refine (does_moveTo h.advances h.new h.waits h.precedes h.scopes).at
    fun _ σ₁ ⟨hadv, hblock, hfun, hled, hkeeps, hscopes⟩ => ?_
  refine hm σ₁ hadv (fun c F hc => hc.of_eq hfun hled) hkeeps.filled (hscopes ▸ h.inScope) fun σ₂ τ hlead hscopes₂ hends => hk τ ?_
  refine ⟨(hadv.trans hlead.advances).trans hends.advances, (hkeeps.precedes.trans hlead.keeps.precedes).trans hends.advances.precedes,
    (hends.scopes.trans hscopes₂).trans hscopes, fun R hR => hends.pending R (hlead.pending R (hblock.symm ▸ hR.of_eq hfun)),
    fun c F hne hc => ?_, fun c F hc => ((hc.of_eq hfun hled).advances hlead.advances).advances hends.advances⟩
  have hc₁ : σ₁.Waits c F := hc.of_eq hfun hled
  have hne₁ : c ≠ σ₁.block := hblock.symm ▸ hne
  exact (hc₁.advances hlead.advances hne₁).advances hends.advances (hc₁.ne_block hlead.advances hne₁)

/-- A block that waits is entered, a statement is lowered in it, and a jump leads on. -/
theorem does_arm (hn : Lowers I params n) (hdef : n.definesName = false) (hret : base.Returns type) (h : Awaits base ρ σ b)
    (hnext : σ.Promises next ρ.Filled) (hk : ∀ τ : Spot I params, Closes base ρ σ τ b → Does k τ.work Q) :
    Does (do build (.moveTo b); statement n; jumpUnlessDone next; k) σ.work Q := by
  refine does_within h hk fun σ₁ hadv hpromises hfilled hs hk => ?_
  refine (hn σ₁ type (hret.advances hadv) hs).at fun _ σ₂ ⟨hlead, hscopes⟩ => ?_
  refine (does_jumpUnlessDone ((hpromises _ _ hnext).advances hlead.advances) (fun r hr => hlead.filled r (hfilled r hr))
    hlead.symbols).at fun _ σ₃ hends => ?_
  exact hk σ₂ σ₃ hlead (hscopes hdef) hends

/-- A block that waits is entered, and closed by a branch on a condition. -/
theorem does_test {yes no : BlockId} (hn : n.IsExpression) (h : Awaits base ρ σ b) (hyes : σ.Promises yes ρ.Filled) (hno : σ.Promises no F)
    (hF : ∀ r, F r → ρ.Filled r) (hk : ∀ τ : Spot I params, Closes base ρ σ τ b → Does k τ.work Q) :
    Does (do build (.moveTo b); let cond ← condition n; build (.branch cond yes no); k) σ.work Q := by
  refine does_within h hk fun σ₁ hadv hpromises hfilled hs hk => ?_
  refine (reaches_condition hn).does fun v σ₂ chunk happ hv => ?_
  have hfilled₂ : ∀ r, ρ.Filled r → σ₂.Filled r := fun r hr => happ.keeps.filled r (hfilled r hr)
  refine (σ₂.does_terminate (mayEnd_branch hv ((hpromises _ _ hyes).advances happ.advances) ((hpromises _ _ hno).advances happ.advances)
    hfilled₂ fun r hr => hfilled₂ r (hF r hr)) nofun).at fun _ σ₃ ⟨hends, _⟩ => ?_
  exact hk σ₂.toSpot σ₃ (leads_of_stays (stays_of_appends happ hs)) (by rw [happ.work]) hends

/-- A block that waits is entered and closed by a jump. -/
theorem does_passage (h : Awaits base ρ σ b) (hnext : σ.Promises next ρ.Filled)
    (hk : ∀ τ : Spot I params, Closes base ρ σ τ b → Does k τ.work Q) : Does (do build (.moveTo b); build (.jump next); k) σ.work Q := by
  refine does_within h hk fun σ₁ hadv hpromises hfilled hs hk => ?_
  refine (σ₁.does_terminate (mayEnd_jump (hpromises _ _ hnext) hfilled) nofun).at fun _ σ₂ ⟨hends, _⟩ => ?_
  exact hk σ₁.toSpot σ₂ (leads_refl hs) rfl hends

/-- A block that waits is entered, an expression is lowered in it, and a jump leads on. -/
theorem does_turn (hn : n.IsExpression) (h : Awaits base ρ σ b) (hnext : σ.Promises next ρ.Filled)
    (hk : ∀ τ : Spot I params, Closes base ρ σ τ b → Does k τ.work Q) :
    Does (do build (.moveTo b); discard (expression n); build (.jump next); k) σ.work Q := by
  refine does_within h hk fun σ₁ hadv hpromises hfilled hs hk => ?_
  refine Reaches.does (P := fun _ _ => True) ((reaches_expression hn).then fun _ _ _ _ _ => trivial) fun _ σ₂ chunk happ _ => ?_
  refine (σ₂.does_terminate (mayEnd_jump ((hpromises _ _ hnext).advances happ.advances)
    fun r hr => happ.keeps.filled r (hfilled r hr)) nofun).at fun _ σ₃ ⟨hends, _⟩ => ?_
  exact hk σ₂.toSpot σ₃ (leads_of_stays (stays_of_appends happ hs)) (by rw [happ.work]) hends

/-- A statement leads to the block where the ways join: names mean there what they meant before, and what was filled is. -/
theorem does_join (h : Awaits ρ.toSpot ρ σ next) (hpending : ∀ R, ρ.Pending (insert ρ.block R) → σ.Pending (insert next R)) :
    Does (build (.moveTo next)) σ.work fun _ => ρ.LeadsTo := by
  refine (does_moveTo h.advances h.new h.waits h.precedes h.scopes).imp fun _ w ⟨τ, hτ, hadv, hblock, hfun, _, hkeeps, hscopes⟩ => ?_
  refine ⟨τ.toSpot, hτ, ⟨hadv, hkeeps.filled, hscopes ▸ h.inScope, congrArg _ hscopes, τ.symbols, fun R hR => ?_⟩, hscopes⟩
  rw [hblock]
  exact (hpending R hR).of_eq hfun

end Segments

/-- A conditional with two arms. -/
theorem lowers_branch {yes no : Node} (hcond : cond.IsExpression) (hyes : Lowers I params yes) (hdef : yes.definesName = false)
    (hno : Lowers I params no) (hdef' : no.definesName = false) : Lowers I params ⟨loc, .branch cond yes (some no)⟩ := by
  intro σ type hret hs
  rw [statement]
  refine (reaches_condition hcond).does fun v ρ chunk happ hv => ?_
  have hscopes : ρ.work.scopes = σ.work.scopes := by rw [happ.work]
  refine (Lays.refl ρ).append fun yesBlock _ h => h.append fun noBlock _ h => h.append fun next σ₁ h => ?_
  refine (σ₁.does_terminate (mayEnd_branch (h.holds hv) (h.waits yesBlock (by simp)).toPromises (h.waits noBlock (by simp)).toPromises
    h.filled h.filled) nofun).at fun _ σ₂ ⟨hends, _⟩ => ?_
  have hret' := hret.advances happ.advances
  have haw := h.awaits hends (hscopes ▸ hs)
  have hord := h.ordered
  simp only [List.forall_mem_cons, List.pairwise_cons] at haw hord
  obtain ⟨hnext, hno', hyes', -⟩ := haw
  refine does_arm hyes hdef hret' hyes' hnext.waits.toPromises fun σ₃ h₃ => ?_
  have hnext₃ := h₃.awaits hnext (by grind)
  refine does_arm hno hdef' hret' (h₃.awaits hno' (by grind)) hnext₃.waits.toPromises fun σ₄ h₄ => ?_
  refine (does_join (h₄.awaits hnext₃ (by grind)) fun R hR => ?_).imp
    fun _ w ⟨τ, hw, hlead, hscopes'⟩ => ⟨τ, hw, (leads_of_stays (stays_of_appends happ hs)).trans hlead, fun _ => hscopes'.trans hscopes⟩
  refine h₄.pending _ (h₃.pending _ ((hends.pending _ (h.pending R hR)).mono fun b hb => ?_))
  simp only [Set.mem_insert_iff, Set.mem_union, Set.mem_ofPred_eq, List.mem_cons] at hb ⊢
  tauto

/-- A conditional with one arm. -/
theorem lowers_branch_single {yes : Node} (hcond : cond.IsExpression) (hyes : Lowers I params yes) (hdef : yes.definesName = false) :
    Lowers I params ⟨loc, .branch cond yes none⟩ := by
  intro σ type hret hs
  rw [statement]
  refine (reaches_condition hcond).does fun v ρ chunk happ hv => ?_
  have hscopes : ρ.work.scopes = σ.work.scopes := by rw [happ.work]
  refine (Lays.refl ρ).append fun yesBlock _ h => h.append fun next σ₁ h => ?_
  refine (σ₁.does_terminate (mayEnd_branch (h.holds hv) (h.waits yesBlock (by simp)).toPromises (h.waits next (by simp)).toPromises
    h.filled h.filled) nofun).at fun _ σ₂ ⟨hends, _⟩ => ?_
  have haw := h.awaits hends (hscopes ▸ hs)
  have hord := h.ordered
  simp only [List.forall_mem_cons, List.pairwise_cons] at haw hord
  obtain ⟨hnext, hyes', -⟩ := haw
  refine does_arm hyes hdef (hret.advances happ.advances) hyes' hnext.waits.toPromises fun σ₃ h₃ => ?_
  refine (does_join (h₃.awaits hnext (by grind)) fun R hR => ?_).imp
    fun _ w ⟨τ, hw, hlead, hscopes'⟩ => ⟨τ, hw, (leads_of_stays (stays_of_appends happ hs)).trans hlead, fun _ => hscopes'.trans hscopes⟩
  refine h₃.pending _ ((hends.pending _ (h.pending R hR)).mono fun b hb => ?_)
  simp only [Set.mem_insert_iff, Set.mem_union, Set.mem_ofPred_eq, List.mem_cons] at hb ⊢
  tauto

/-- A loop on a condition. -/
theorem lowers_whileLoop (hcond : cond.IsExpression) (hbody : Lowers I params body) (hdef : body.definesName = false) :
    Lowers I params ⟨loc, .whileLoop cond body⟩ := by
  intro σ type hret hs
  rw [statement]
  refine (Lays.refl σ).append fun condBlock _ h => h.append fun bodyBlock _ h => h.append fun next σ₁ h => ?_
  refine (σ₁.does_terminate (mayEnd_jump (h.waits condBlock (by simp)).toPromises h.filled) nofun).at fun _ σ₂ ⟨hends, _⟩ => ?_
  have haw := h.awaits hends hs
  have hord := h.ordered
  simp only [List.forall_mem_cons, List.pairwise_cons] at haw hord
  obtain ⟨hnext, hbody', hcond', -⟩ := haw
  refine does_test hcond hcond' hbody'.waits.toPromises hnext.waits.toPromises (fun _ hr => hr) fun σ₃ h₃ => ?_
  have hnext₃ := h₃.awaits hnext (by grind)
  refine does_arm hbody hdef hret (h₃.awaits hbody' (by grind)) (h₃.promises _ _ hcond'.waits.toPromises) fun σ₄ h₄ => ?_
  refine (does_join (h₄.awaits hnext₃ (by grind)) fun R hR => ?_).imp
    fun _ w ⟨τ, hw, hlead, hscopes⟩ => ⟨τ, hw, hlead, fun _ => hscopes⟩
  refine h₄.pending _ (h₃.pending _ ((hends.pending _ (h.pending R hR)).mono fun b hb => ?_))
  simp only [Set.mem_insert_iff, Set.mem_union, Set.mem_ofPred_eq, List.mem_cons] at hb ⊢
  tauto

/-- The statement with which a loop starts. -/
theorem does_optional (σ : Scene I params) (hinit : ∀ n, init = some n → n.IsSimple) (hs : σ.work.scopes ≠ []) :
    Does (optional init) σ.work fun _ => σ.StaysAt := by
  cases init with
  | none => exact does_pure ⟨σ, rfl, .refl hs⟩
  | some n =>
    show Does (statement n) σ.work _
    rw [statement_simple (hinit n rfl)]
    exact (σ.does_simple (hinit n rfl) hs).imp fun _ _ ⟨τ, hw, hstays, _⟩ => ⟨τ, hw, hstays⟩

/-- The rounds of a loop whose variable is defined at `ρ`, in a scope of its own. -/
theorem does_rounds {cond step : Option Node} (hcond : ∀ n, cond = some n → n.IsExpression)
    (hstep : ∀ n, step = some n → n.IsExpression) (hbody : Lowers I params body) (hdef : body.definesName = false)
    {ρ : Scene I params} {condBlock bodyBlock stepBlock next : BlockId} (hret : σ.Returns type) (hs : σ.work.scopes ≠ [])
    (hscopes : ρ.work.scopes.leave = σ.work.scopes) (hfilled : ∀ r, σ.Filled r → ρ.Filled r) (hcond' : Awaits σ.toSpot ρ τ condBlock)
    (hbody' : Awaits σ.toSpot ρ τ bodyBlock) (hstep' : Awaits σ.toSpot ρ τ stepBlock) (hnext : τ.Waits next σ.Filled)
    (hbody_gt : condBlock < bodyBlock) (hstep_gt : bodyBlock < stepBlock) (hnext_gt : stepBlock < next)
    (hpending : ∀ R, σ.Pending (insert σ.block R) →
      τ.Pending (insert condBlock (insert bodyBlock (insert stepBlock (insert next R))))) : Does (do
      build (.moveTo condBlock)
      match cond with
      | some cond =>
        let cond ← condition cond
        build (.branch cond bodyBlock next)
      | none => build (.jump bodyBlock)
      build (.moveTo bodyBlock)
      statement body
      jumpUnlessDone stepBlock
      build (.moveTo stepBlock)
      match step with
      | some step => discard (expression step)
      | none => pure ()
      build (.jump condBlock)
      leaveScope
      build (.moveTo next)) τ.work
      fun _ => σ.LeadsTo := by
  have hge := hcond'.new
  -- Behind the last round the scope is closed, and the ways join.
  have hleave : ∀ {σ₁ υ : Spot I params} {b : BlockId}, Closes σ.toSpot ρ σ₁ υ b → υ.Waits next σ.Filled →
      (∀ R, σ.Pending (insert σ.block R) → υ.Pending (insert next R)) → Does (do leaveScope; build (.moveTo next)) υ.work
        fun _ => σ.LeadsTo := by
    intro σ₁ υ b h hnext hpend
    refine does_of_ok (v := (υ.annotate υ.work.journal υ.work.scopes.leave).work) rfl ?_
    exact does_join ⟨h.advances.trans (υ.advances_annotate _ _), h.advances.precedes.trans (υ.keeps_annotate _ _).precedes,
      show υ.work.scopes.leave = _ by rw [h.scopes]; exact hscopes, hs, by grind, hnext.of_eq rfl rfl⟩
      fun R hR => (hpend R hR).of_eq rfl
  have hturn : ∀ υ : Spot I params, Closes σ.toSpot ρ τ υ condBlock → Does (do
      build (.moveTo bodyBlock)
      statement body
      jumpUnlessDone stepBlock
      build (.moveTo stepBlock)
      match step with
      | some step => discard (expression step)
      | none => pure ()
      build (.jump condBlock)
      leaveScope
      build (.moveTo next)) υ.work fun _ => σ.LeadsTo := by
    intro υ h₁
    have hstep₁ := h₁.awaits hstep' (by grind)
    have hnext₁ := h₁.waits next _ (by grind) hnext
    refine does_arm hbody hdef hret (h₁.awaits hbody' (by grind)) hstep₁.waits.toPromises fun υ₂ h₂ => ?_
    have hstep₂ := h₂.awaits hstep₁ (by grind)
    have hnext₂ := h₂.waits next _ (by grind) hnext₁
    have hcond₂ := h₂.promises _ _ (h₁.promises _ _ hcond'.waits.toPromises)
    have hlast : ∀ υ₃ : Spot I params, Closes σ.toSpot ρ υ₂ υ₃ stepBlock → Does (do leaveScope; build (.moveTo next)) υ₃.work
        fun _ => σ.LeadsTo := fun υ₃ h₃ =>
      hleave h₃ (h₃.waits next _ (by grind) hnext₂) fun R hR => h₃.pending _ (h₂.pending _ (h₁.pending _ (hpending R hR)))
    cases step with
    | some n => exact does_turn (hstep n rfl) hstep₂ hcond₂ hlast
    | none => exact does_passage hstep₂ hcond₂ hlast
  cases cond with
  | some n => exact does_test (hcond n rfl) hcond' hbody'.waits.toPromises hnext.toPromises hfilled hturn
  | none => exact does_passage hcond' hbody'.waits.toPromises hturn

/-- A loop with a header. What the header defines is in scope in the whole loop, so the blocks of the loop are promised anew when the
definition has been made. -/
theorem lowers_forLoop {cond step : Option Node} (hinit : ∀ n, init = some n → n.IsSimple) (hcond : ∀ n, cond = some n → n.IsExpression)
    (hstep : ∀ n, step = some n → n.IsExpression) (hbody : Lowers I params body) (hdef : body.definesName = false) :
    Lowers I params ⟨loc, .forLoop init cond step body⟩ := by
  intro σ type hret hs
  rw [statement]
  refine (Lays.refl σ).append fun initBlock _ h => h.append fun condBlock _ h => h.append fun bodyBlock _ h => h.append
    fun stepBlock _ h => h.append fun next σ₁ h => ?_
  refine (σ₁.does_terminate (mayEnd_jump (h.waits initBlock (by simp)).toPromises h.filled) nofun).at
    fun _ σ₂ ⟨hends, hedges⟩ => ?_
  have hord := h.ordered
  have hge := h.new initBlock (by simp)
  simp only [List.forall_mem_cons, List.pairwise_cons] at hord
  have hadv₂ := h.advances.trans hends.advances
  have hscopes₂ : σ₂.work.scopes = σ.work.scopes := hends.scopes.trans h.scopes
  refine does_of_ok (v := (σ₂.annotate σ₂.work.journal σ₂.work.scopes.enter).work) rfl ?_
  refine (does_moveTo (ρ := σ.entered) (hadv₂.trans (σ₂.advances_annotate σ₂.work.journal σ₂.work.scopes.enter)) hge
    ((h.awaits hends hs initBlock (by simp)).waits.of_eq rfl rfl) ⟨hadv₂.ledger, hadv₂.types⟩ (congrArg Scopes.enter hscopes₂)).at
    fun _ σ₃ ⟨hadv₃, hblock₃, hfun₃, hled₃, hkeeps₃, hscopes₃⟩ => ?_
  refine (σ₃.does_optional hinit (hscopes₃ ▸ List.cons_ne_nil _ _)).at fun _ σ₄ hstays => ?_
  have hfun₃ : σ₃.function = σ₂.function := hfun₃
  have hled₃ : σ₃.ledger = σ₂.ledger := hled₃
  -- The blocks of the loop wait, and no edge leads to them before the header is left.
  have hloop : ∀ b ∈ [next, stepBlock, bodyBlock, condBlock], σ₄.Waits b σ.Filled := fun b hb =>
    ((h.awaits hends hs b (by grind)).waits.of_eq hfun₃ hled₃).advances hstays.advances (by grind)
  have hnew : ∀ b ∈ [condBlock, bodyBlock, stepBlock], σ₄.Untargeted b := fun b hb => hstays.untargeted fun c B hB =>
    hedges b (fun hm => by cases hm with | head => grind | tail _ h => cases h) (h.untargeted b (by grind)) c B (hfun₃ ▸ hB)
  obtain ⟨ρ, hwork, hfunction, hblock, hkeeps, hwaits, hothers, hback⟩ :=
    σ₄.exists_promise [condBlock, bodyBlock, stepBlock]
      (fun b hb => ⟨hnew b hb, by grind [hstays.block], σ.Filled, hloop b (by grind)⟩) σ₄.Filled
  have hF : σ₄.Filled = ρ.Filled := funext fun r => propext ⟨hkeeps.filled r, hback r⟩
  rw [hF] at hwaits
  have hadvρ : σ.Advances ρ.toSpot := advances_promised (hadv₃.trans hstays.advances) hwork hfunction hblock hkeeps
    fun c hc => hothers c (by grind)
  have hnext : ρ.Waits next σ.Filled := by
    have hnext := hloop next (by simp)
    exact ⟨⟨hnext.ne, hfunction ▸ hnext.lt, (hothers next (by grind)).trans hnext.filled⟩, hfunction ▸ hnext.empty⟩
  rw [← hwork]
  refine (ρ.does_terminate (mayEnd_jump (hwaits condBlock (by simp)).toPromises fun _ hr => hr) nofun).at
    fun _ σ₅ ⟨hends', _⟩ => ?_
  have hρblock : ρ.block = initBlock := hblock.trans (hstays.block.trans hblock₃)
  have hscopes : ρ.work.scopes.leave = σ.work.scopes := by
    rw [hwork]
    exact hstays.outer.trans (congrArg List.tail hscopes₃)
  have haw : ∀ b ∈ [condBlock, bodyBlock, stepBlock], Awaits σ.toSpot ρ σ₅ b := fun b hb =>
    ⟨hadvρ.trans hends'.advances, hends'.advances.precedes, hends'.scopes, fun h => hs (by rw [← hscopes, h]; rfl), h.new b (by grind),
      (hwaits b hb).advances hends'.advances (by grind)⟩
  refine (does_rounds hcond hstep hbody hdef hret hs hscopes (fun r hr => hkeeps.filled r (hstays.filled r (hkeeps₃.filled r hr)))
    (haw condBlock (by simp)) (haw bodyBlock (by simp)) (haw stepBlock (by simp)) (hnext.advances hends'.advances (by grind)) (by grind)
    (by grind) (by grind) fun R hR => hends'.pending _ ?_).imp fun _ w ⟨τ, hw, hlead, hscopes⟩ => ⟨τ, hw, hlead, fun _ => hscopes⟩
  refine ((((hends.pending _ (h.pending R hR)).of_eq hfun₃).transfer hstays.ends).of_eq hfunction).mono fun b hb => ?_
  simp only [Set.mem_insert_iff, Set.mem_union, Set.mem_ofPred_eq, List.mem_cons, hρblock] at hb ⊢
  tauto

/-- Every statement that the grammar allows is lowered as it should be. -/
theorem lowers_statement (hn : n.IsStatement) : Lowers I params n := by
  induction hn with
  | define hb hinit => exact lowers_define hb hinit
  | expression h =>
    intro σ type _ hs
    rw [statement]
    exact Does.discard (reaches_expression h.expression) fun _ _ ⟨τ, _, hw, happ, _⟩ =>
      ⟨τ.toSpot, hw, leads_of_stays (stays_of_appends happ hs), fun _ => by rw [happ.work]⟩
  | empty =>
    intro σ type _ hs
    rw [statement]
    exact does_pure ⟨σ.toSpot, rfl, leads_refl hs, fun _ => rfl⟩
  | block _ ih => exact lowers_block ih
  | @branch loc cond yes no hcond _ hyes _ hno ih ih' =>
    have hdef := Node.definesName_of_isBlock hyes
    cases no with
    | none => exact lowers_branch_single hcond.expression ih hdef
    | some no =>
      exact lowers_branch hcond.expression ih hdef (ih' no rfl)
        ((hno no rfl).elim Node.definesName_of_isBlock Node.definesName_of_isBranch)
  | whileLoop hcond _ hbody ih => exact lowers_whileLoop hcond.expression ih (Node.definesName_of_isBlock hbody)
  | forLoop hinit hcond hstep _ hbody ih =>
    exact lowers_forLoop hinit (fun e he => (hcond e he).expression) (fun e he => (hstep e he).expression) ih
      (Node.definesName_of_isBlock hbody)
  | forEach =>
    intro σ type _ _
    rw [statement]
    exact does_throw rfl
  | ret hvalue => exact lowers_ret fun e he => (hvalue e he).expression

end Scene

end Ember
