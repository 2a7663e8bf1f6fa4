import Ember.Proofs.Lower.Statement

/-!
# Lowering the body of a function

The body of a declared function is lowered from an empty entry on: the parameters get their places, the statements are lowered, and the
last block is ended. The function that comes out is well formed, and nothing else in the module is touched.
-/

namespace Ember

open IR (Interface Grade Grading Ledger Instruction Terminator Register Block BlockId Value Ty)

/-- What a name of the unit stands for: a function of the interface, or one of its globals. -/
structure TypeTable.Names (I : Interface) (t : TypeTable) (s : Symbol) : Prop where
  lt : s.operand.type < t.entries.length
  function : s.isFunction = true → s.operand.isPlace = false ∧ s.operand.value = .function s.name ∧
    ∃ sig, (t.entry s.operand.type).signature? = some sig ∧ I.signature? s.name = some (sig.grades t, t.ir sig.ret)
  global : s.isFunction = false → s.operand.isPlace = true ∧ s.operand.value = .global s.name ∧
    t.kind s.operand.type ≠ .function ∧ I.cell? s.name = some (t.ir s.operand.type, s.operand.mutable)

namespace TypeTable.Names

variable {I : Interface} {t t' : TypeTable} {s : Symbol}

/-- The kind of the type of a function. -/
theorem kind_eq (h : t.Names I s) (hs : s.isFunction = true) : t.kind s.operand.type = .function := by
  obtain ⟨-, -, sig, hsig, -⟩ := h.function hs
  obtain ⟨e, he⟩ : ∃ e, t.entries[s.operand.type]? = some e := ⟨_, List.getElem?_eq_getElem h.lt⟩
  rw [entry_eq he] at hsig
  have hshape := signature?_eq_some.mp hsig
  rw [kind_other he (fun target ht => by rw [hshape] at ht; cases ht), hshape]
  rfl

/-- The types of a signature in the table are in the table. -/
theorem signature_lt (hv : t.Valid) (h : t.Names I s) {sig : Signature} (hsig : (t.entry s.operand.type).signature? = some sig) :
    ∀ x ∈ sig.types, t.Has x ∧ t.kind x ≠ .function := fun x hx =>
  let ⟨hlt, hp⟩ := hv.signature h.lt hsig x hx
  ⟨Nat.lt_trans hlt h.lt, hv.kind_plain hp⟩

/-- Types that are entered later change nothing about a signature. -/
theorem grades_extends (hx : t.Extends t') {sig : Signature} (hlt : ∀ x ∈ sig.types, t.Has x) :
    sig.grades t' = sig.grades t ∧ t'.ir sig.ret = t.ir sig.ret := by
  refine ⟨List.map_congr_left fun x hx' => ?_, hx.ir (hlt _ List.mem_cons_self)⟩
  rw [TypeTable.grade, TypeTable.grade, hx.ir (hlt _ (List.mem_cons_of_mem _ (List.mem_map_of_mem hx')))]

theorem grown (h : t.Names I s) (hv : t.Valid) (hv' : t'.Valid) (hx : t.Extends t') : t'.Names I s where
  lt := Nat.lt_of_lt_of_le h.lt hx.length_le
  function := fun hs => by
    obtain ⟨hp, hvalue, sig, hsig, hI⟩ := h.function hs
    obtain ⟨hgrades, hret⟩ := grades_extends hx fun x hx => (h.signature_lt hv hsig x hx).1
    exact ⟨hp, hvalue, sig, by rw [hx.entry h.lt]; exact hsig, by rw [hgrades, hret]; exact hI⟩
  global := fun hs => by
    obtain ⟨hp, hvalue, hk, hI⟩ := h.global hs
    exact ⟨hp, hvalue, by rw [hx.kind hv.ordered hv'.ordered h.lt]; exact hk, by rw [hx.ir h.lt]; exact hI⟩

/-- The name means something in every function. -/
theorem means {params : List Grade} {σ : Spot I params} (h : σ.work.types.Names I s) : σ.Means s.operand := by
  cases hs : s.isFunction with
  | true =>
    obtain ⟨hp, hvalue, sig, hsig, hI⟩ := h.function hs
    refine .inr ⟨hp, h.lt, h.kind_eq hs, fun s' hs' => ⟨_, hvalue, ?_⟩⟩
    rw [hsig] at hs'
    cases hs'
    exact hI
  | false =>
    obtain ⟨hp, hvalue, hk, hI⟩ := h.global hs
    refine .inl ⟨hp, h.lt, hk, ?_, fun r hr => ?_⟩
    · rw [hvalue]
      cases hm : s.operand.mutable with
      | true => exact .inl ⟨_, hm ▸ hI, rfl⟩
      | false => exact .inr ⟨rfl, .inr ⟨_, rfl, hm ▸ hI⟩⟩
    · rw [hvalue] at hr
      cases hr

end TypeTable.Names

variable {I : Interface} {params : List Grade} {w : Workspace} {loc : Loc}

namespace Scene

variable {type : TypeId} {σ : Spot I params}

open Lowering

/-! ## Parameters -/

theorem does_parameter (σ : Scene I params) {index : Nat} {n : Node} {mode : PassMode} (hn : n.IsParameter)
    (hlt : σ.work.types.Has type) (hk : σ.work.types.kind type ≠ .function)
    (hparam : params[index]? = some (σ.work.types.grade (type, mode))) (hs : σ.work.scopes ≠ []) :
    Does (parameter index n type mode) σ.work fun _ => σ.StaysAt := by
  obtain ⟨loc, loc', binder, mode', hb⟩ : ∃ loc loc' binder mode', n = ⟨loc, .parameter ⟨loc', .define binder none⟩ mode'⟩ := by
    cases hn with
    | mk h => exact ⟨_, _, _, _, rfl⟩
  subst hb
  unfold parameter
  refine does_of_ok rfl (does_checkNotReserved fun _ => ?_)
  have hbind : ∀ (τ : Scene I params) (x : Operand), σ.Stays τ.toSpot → τ.Means x →
      Does (pure x >>= fun operand => bind { name := binder.name, operand, loc, isFunction := false }) τ.work
        fun _ => σ.StaysAt := fun τ x hstays hx =>
    (does_bindSymbol hstays.inScope hx).imp fun _ w => Exists.imp fun υ => And.imp_right hstays.trans
  refine does_ite (fun href => ?_) fun hcopy => ?_
  · rw [TypeTable.grade, if_pos href] at hparam
    obtain ⟨hy, -⟩ := σ.types.mutableOf hlt hk
    obtain ⟨τ, happ, hw, -⟩ := σ.exists_retype hy.grown hy.valid
    refine does_of_ok (run_mutableOf.mpr ⟨hasTypes_single hlt, rfl, hw.symm⟩) (hbind τ _ (stays_of_appends happ hs) ?_)
    refine .inl ⟨rfl, ?_, ?_, .inl ?_, by rintro _ ⟨⟩⟩
    · rw [hw]
      exact hy.lt
    · rw [hw]
      exact hy.kind ▸ hk
    · show params[index]? = some (.address (τ.work.types.ir _))
      rw [hw, hparam]
      exact congrArg (some ∘ Grade.address) hy.ir.symm
  · rw [TypeTable.grade, if_neg hcopy] at hparam
    have hstart : σ.Holds (.parameter index) (σ.work.types.ir type) := ⟨hparam, by rintro _ ⟨⟩⟩
    exact does_irOf hlt (σ.does_place hs hlt hk hstart _ hbind)

theorem does_parameterList {ns : List Node} (hns : ∀ n ∈ ns, n.IsParameter) {rest : List (TypeId × PassMode)} {index : Nat}
    (σ : Scene I params) (hrest : ∀ p ∈ rest, σ.work.types.Has p.1 ∧ σ.work.types.kind p.1 ≠ .function)
    (hparams : ∀ j p, rest[j]? = some p → params[index + j]? = some (σ.work.types.grade p)) (hs : σ.work.scopes ≠ []) :
    Does (parameterList index ns rest) σ.work fun _ => σ.StaysAt := by
  induction ns generalizing σ index rest with
  | nil =>
    unfold parameterList
    exact does_pure ⟨σ, rfl, .refl hs⟩
  | cons n ns ih =>
    cases rest with
    | nil =>
      unfold parameterList
      exact does_pure ⟨σ, rfl, .refl hs⟩
    | cons p rest =>
      obtain ⟨hlt, hk⟩ := hrest p List.mem_cons_self
      unfold parameterList
      refine (σ.does_parameter (hns n List.mem_cons_self) hlt hk (hparams 0 p rfl) hs).at fun _ τ hstays => ?_
      refine (ih (fun m hm => hns m (List.mem_cons_of_mem _ hm)) τ (fun q hq => ?_) (fun j q hq => ?_) hstays.inScope).imp
        fun _ w ⟨υ, hw, hstays'⟩ => ⟨υ, hw, hstays.trans hstays'⟩
      · obtain ⟨hlt', hk'⟩ := hrest q (List.mem_cons_of_mem _ hq)
        exact ⟨hstays.advances.lt hlt', by rw [hstays.keeps.kind hlt']; exact hk'⟩
      · have hq' := hparams (j + 1) q hq
        rw [← Nat.add_assoc, Nat.add_right_comm] at hq'
        rw [hq', TypeTable.grade, TypeTable.grade,
          hstays.advances.types.ir (hrest q (List.mem_cons_of_mem _ (List.mem_of_getElem? hq))).1]

/-! ## The end of a body -/

/-- All blocks have their end, and to those that are not meant to be reached nothing leads. -/
structure Finished (σ : Spot I params) : Prop where
  ended : ∀ B ∈ σ.function.blocks, B.terminator.isSome
  dead : ∀ b B, σ.function.block? b = some B → B.terminator = some .unreachable → b ≠ 0 ∧ ∀ P ∈ σ.function.blocks, b ∉ P.successors

theorem finished_of_pending (h : σ.Pending ∅) : Finished σ where
  ended := fun B hB => by
    obtain ⟨b, hb⟩ := IR.Function.exists_block? hB
    cases ht : B.terminator with
    | none => exact (h.opened b B hb ht).elim
    | some t => rfl
  dead := fun b B hB ht => absurd ht (h.alive b B hB)

/-- Whether a block is the entry or some edge leads to it. -/
theorem targeted_eq_false {f : IR.Function} {b : BlockId} (hb : b < f.blocks.length) (h : f.targeted[b]?.getD false = false) :
    b ≠ f.entry ∧ ∀ P ∈ f.blocks, b ∉ P.successors := by
  simp only [IR.Function.targeted, List.getElem?_map, List.getElem?_range hb, Option.map_some, Option.getD_some,
    List.contains_eq_mem, decide_eq_false_iff_not, List.mem_cons, not_or, List.mem_flatMap, not_exists, not_and] at h
  exact h

theorem run_isReachable (σ : Spot I params) : isReachable σ.work = .ok (σ.function.targeted[σ.block]?.getD false) σ.work := by
  simp only [isReachable, Bind.bind, EStateM.bind, get_apply, σ.cursor.function, σ.cursor.block]
  rfl

/-- A block that can be reached is the entry, or some edge leads to it. -/
theorem targeted_of_reachable {f : IR.Function} {b : BlockId} (hb : b < f.blocks.length) (h : f.Reachable b) :
    f.targeted[b]?.getD false = true := by
  by_contra hno
  obtain ⟨hentry, hedge⟩ := targeted_eq_false hb (by simpa using hno)
  cases h with
  | entry => exact hentry rfl
  | edge _ hB _ hs => exact hedge _ (List.mem_of_getElem? hB) hs

/-- Where something is to be returned, an open last block is refused exactly if it is the entry or some edge leads to it, and else marked. So it
is refused whenever it can be reached; it may also be refused because of an edge from a block that cannot. -/
theorem finish_of_open {name : String} (hlt : σ.work.types.Has type) (hvoid : σ.work.types.isVoid type = false)
    (hopen : σ.content.terminator = none) :
    finish name type loc σ.work = (if σ.function.targeted[σ.block]?.getD false then .error (.missingReturn name loc) σ.work
      else build .unreachable σ.work) ∧
    (σ.function.Reachable σ.block → finish name type loc σ.work = .error (.missingReturn name loc) σ.work) := by
  have hterm : build .isTerminated σ.work = .ok false σ.work :=
    run_build.mpr ⟨_, IR.Build.run_isTerminated.mpr ⟨by rw [σ.cursor.isTerminated, hopen]; rfl, rfl⟩, rfl⟩
  have htypes : typesWith [type] σ.work = .ok σ.work.types σ.work := run_typesWith.mpr ⟨hasTypes_single hlt, rfl, rfl⟩
  have hfinish : finish name type loc σ.work = (if σ.function.targeted[σ.block]?.getD false then .error (.missingReturn name loc) σ.work
      else build .unreachable σ.work) := by
    simp only [finish, Bind.bind, EStateM.bind, hterm, htypes, hvoid, run_isReachable σ, Bool.false_eq_true, if_false]
    split <;> rfl
  exact ⟨hfinish, fun hreach => by rw [hfinish, targeted_of_reachable σ.block_lt hreach, if_pos rfl]⟩

theorem does_finish {name : String} (hret : σ.Returns type) (hsymbols : ∀ scope ∈ σ.work.scopes, ∀ s ∈ scope, σ.Means s.operand)
    (hpending : σ.Pending {σ.block}) :
    Does (finish name type loc) σ.work fun _ w => ∃ τ : Spot I params, τ.work = w ∧ σ.Advances τ ∧ Finished τ ∧
      τ.work.scopes = σ.work.scopes := by
  have hpending : σ.Pending (insert σ.block ∅) := by simpa using hpending
  unfold finish
  refine does_of_ok (run_isTerminated σ) (does_ite (fun hended => ?_) fun hopen => ?_)
  · have hended : σ.content.terminator ≠ none := fun hn => by simp [hn] at hended
    exact does_pure ⟨σ, rfl, .refl _, finished_of_pending (hpending.of_ended hended), rfl⟩
  have hopen : σ.content.terminator = none := by simpa using hopen
  let ρ : Scene I params := ⟨σ, hopen, hsymbols⟩
  refine does_typesWith (hasTypes_single hret.lt) (does_ite (fun hvoid => ?_) fun _ => ?_)
  · refine (ρ.does_terminate (t := .ret none) ⟨(ρ.isVoid_iff hret).mp hvoid, nofun,
      nofun⟩ nofun).imp fun _ _ ⟨τ, hw, hends, _⟩ => ?_
    exact ⟨τ, hw, hends.advances, finished_of_pending (hends.pending ∅ hpending), hends.scopes⟩
  · refine does_of_ok (run_isReachable σ) (does_ite (fun _ => does_throw rfl) fun hdead => ?_)
    obtain ⟨hentry, hno⟩ := targeted_eq_false σ.block_lt (by simpa using hdead)
    have hmay : MayEnd ρ.toSpot .unreachable :=
      ⟨trivial, nofun, nofun⟩
    refine (ρ.does_end hmay).imp fun _ _ ⟨τ, hw, hadv, _, hfun, _, hscopes⟩ => ⟨τ, hw, hadv, ?_, hscopes⟩
    have hblock : ∀ c, τ.function.block? c =
        if c = σ.block then some { σ.content with terminator := some .unreachable } else σ.function.block? c :=
      fun c => hfun ▸ IR.Function.block?_terminate σ.cursor.here c
    refine ⟨fun B hB => ?_, fun b B hB ht => ?_⟩
    · obtain ⟨b, hb⟩ := IR.Function.exists_block? hB
      rw [hblock] at hb
      split at hb
      · cases hb
        rfl
      · rename_i hne
        cases ht : B.terminator with
        | none => exact ((hpending.opened b B hb ht).elim hne id).elim
        | some t => rfl
    · rw [hblock] at hB
      split at hB
      · rename_i heq
        subst heq
        refine ⟨σ.draft.entry ▸ hentry, fun P hP hs => ?_⟩
        obtain ⟨c, hc⟩ := IR.Function.exists_block? hP
        rw [hblock] at hc
        split at hc
        · cases hc
          cases hs
        · exact hno P (List.mem_of_getElem? hc) hs
      · exact absurd ht (hpending.alive b B hB)

end Scene

/-! ## Bodies -/

theorem Scopes.find?_singleton (scope : Scope) (name : String) : Scopes.find? [scope] name = scope.find? (·.name == name) := by
  rw [find?, List.findSome?_cons, List.findSome?_nil, meaning?]
  cases scope.find? (·.name == name) <;> rfl

theorem Scopes.mem_of_find? {scope : Scope} {name : String} {s : Symbol} (h : Scopes.find? [scope] name = some s) :
    s ∈ scope ∧ s.name = name := by
  rw [find?_singleton] at h
  exact ⟨List.mem_of_find?_eq_some h, by simpa using List.find?_some h⟩

/-- A workspace between two bodies: the module is well formed as far as it is built, every name of the unit has its meaning, and the
functions that were not yet defined are only declared. No body has a phi: branches leave their results in slots. -/
structure Staged (I : Interface) (w : Workspace) : Prop where
  types : w.types.Valid
  scope : ∃ scope, w.scopes = [scope] ∧ ∀ s ∈ scope, w.types.Names I s
  module : w.builder.module.WellFormed I
  fresh : ∀ f ∈ w.builder.module.functions, f.name ∉ w.defined → f.blocks = [] ∧ f.entry = 0
  no_phi : ∀ f ∈ w.builder.module.functions, ∀ i ∈ f.instructions, i.isPhi = false

open Lowering

theorem IR.Module.WellFormed.exists_functionIndex {m : IR.Module} (h : m.WellFormed I) {name : String} {s : List Grade × Ty}
    (hs : I.signature? name = some s) : ∃ index f, m.functionIndex? name = some index ∧ m.functions[index]? = some f ∧ f.name = name := by
  obtain ⟨g, hg, hname⟩ := h.callable name s hs
  have hsome : (m.functionIndex? name).isSome := by
    rw [functionIndex?, List.findIdx?_isSome, List.any_eq_true]
    exact ⟨g, hg, by simp [hname]⟩
  obtain ⟨index, hindex⟩ := Option.isSome_iff_exists.mp hsome
  obtain ⟨hlt, hname', -⟩ := List.findIdx?_eq_some_iff_getElem.mp hindex
  exact ⟨index, _, hindex, List.getElem?_eq_getElem hlt, by simpa using hname'⟩

/-- The only block of a function that had none. -/
theorem IR.Function.eq_of_block?_addBlock {f : IR.Function} (hblocks : f.blocks = []) {label : String} {b : BlockId} {B : Block}
    (hB : (f.addBlock label).2.block? b = some B) : b = 0 ∧ B = { id := 0, label := freeLabel f.labels label } := by
  rw [block?_addBlock, block?, hblocks] at hB
  cases b with
  | zero => exact ⟨rfl, (Option.some.inj hB).symm⟩
  | succ b => cases hB

/-- An empty entry is a draft. -/
theorem IR.Function.draft_addBlock {f : IR.Function} (hblocks : f.blocks = []) (hentry : f.entry = 0) (label : String) :
    (f.addBlock label).2.Draft I params { register := fun _ => .datum .void, filled := fun _ _ => False } := by
  have hcontent : (f.addBlock label).2.blocks = [{ id := 0, label := freeLabel f.labels label }] := by simp [addBlock, hblocks]
  refine ⟨hentry, by simp [hcontent], by simp [labels, hcontent], by simp [instructions, hcontent], fun _ h => h, fun b B hB => ?_⟩
  obtain ⟨rfl, rfl⟩ := eq_of_block?_addBlock hblocks hB
  exact .empty 0 _

/-- The scene at the start of a body. -/
theorem exists_start {f : IR.Function} {b : IR.Builder} (hvalid : w.types.Valid)
    (hnames : ∀ scope ∈ w.scopes, ∀ s ∈ scope, w.types.Names I s) (hf : b.currentFunction? = some f) (hblocks : f.blocks = [])
    (hentry : f.entry = 0) (params : List Grade) (hwork : w.builder = { b.update (f.addBlock "entry").2 with block := some 0 }) :
    ∃ σ : Scene I params, σ.work = w ∧ σ.function = (f.addBlock "entry").2 ∧ σ.Pending {σ.block} := by
  have hhere : (f.addBlock "entry").2.block? 0 = some { id := 0, label := IR.Function.freeLabel f.labels "entry" } := by
    simp [IR.Function.block?, IR.Function.addBlock, hblocks]
  let σ : Spot I params :=
    { ledger := { register := fun _ => .datum .void, filled := fun _ _ => False }
      work := w
      function := (f.addBlock "entry").2
      block := 0
      content := { id := 0, label := IR.Function.freeLabel f.labels "entry" }
      cursor := by rw [hwork]; exact ⟨IR.Builder.currentFunction?_update hf, rfl, hhere⟩
      types := hvalid
      draft := IR.Function.draft_addBlock hblocks hentry "entry" }
  have hone : ∀ c C, σ.function.block? c = some C → c = 0 ∧ C = σ.content := fun c C => IR.Function.eq_of_block?_addBlock hblocks
  refine ⟨⟨σ, rfl, fun scope hscope s hs => (hnames scope hscope s hs).means⟩, rfl, rfl, fun c C hC _ => (hone c C hC).1, fun c C hC => ?_⟩
  rw [(hone c C hC).2]
  simp [σ]

theorem does_body {loc : Loc} {name : String} {returns : TypeRef} {ns : List Node} {inlined : Bool} {b : Node}
    (hns : ∀ n ∈ ns, n.IsParameter) (hb : b.IsStatement) (hdef : b.definesName = false) (h : Staged I w)
    (hdecl : ∃ s, w.scopes.find? name = some s ∧ s.isFunction = true) :
    Does (body ⟨loc, .prototype name returns ns inlined⟩ b) w fun _ w' => Staged I w' ∧ w'.scopes = w.scopes := by
  obtain ⟨scope, hscopes, hnames⟩ := h.scope
  obtain ⟨s, hs, hfunction⟩ := hdecl
  obtain ⟨hs_mem, hs_name⟩ := Scopes.mem_of_find? (hscopes ▸ hs)
  have hname := hnames s hs_mem
  obtain ⟨-, -, sig, hsig, hI⟩ := hname.function hfunction
  have hsig_lt := hname.signature_lt h.types hsig
  rw [hs_name] at hI
  obtain ⟨index, f, hindex, hf, hfname⟩ := h.module.exists_functionIndex hI
  unfold body
  dsimp only
  refine does_of_ok rfl (does_ite (fun _ => .stop (does_throw rfl)) fun hnew => ?_)
  have hnew : name ∉ w.defined := by simpa using hnew
  obtain ⟨hblocks, hentry⟩ := h.fresh f (List.mem_of_getElem? hf) (hfname ▸ hnew)
  refine does_of_ok rfl (does_of_ok (run_lookup.mpr ⟨s, hs, rfl, rfl⟩) (does_typesWith (hasTypes_single hname.lt) ?_))
  rw [hsig]
  dsimp only
  refine does_of_ok rfl ?_
  dsimp only
  rw [hindex]
  dsimp only
  let b₁ : IR.Builder := { w.builder with function := some index, block := none }
  have hcurrent : b₁.currentFunction? = some f := IR.Builder.currentFunction?_eq_some.mpr ⟨index, rfl, hf⟩
  have henter : IR.Build.enter index w.builder = .ok () b₁ := by
    have hlt : ¬w.builder.module.functions.length ≤ index := Nat.not_le.mpr (List.getElem?_eq_some_iff.mp hf).1
    simp only [IR.Build.enter, Bind.bind, EStateM.bind, get_apply, hlt, if_false]
    rfl
  have happend := IR.Build.appendBlock_eq hcurrent "entry"
  rw [hblocks] at happend
  refine does_of_ok (run_build.mpr ⟨_, henter, rfl⟩) (does_of_ok (run_build.mpr ⟨_, happend, rfl⟩) ?_)
  refine does_of_ok (run_build.mpr ⟨{ b₁.update (f.addBlock "entry").2 with block := some 0 }, rfl, rfl⟩) ?_
  let w₀ : Workspace :=
    { w with
      defined := name :: w.defined
      builder := { b₁.update (f.addBlock "entry").2 with block := some 0 }
      returns := some sig.ret
      scopes := w.scopes.enter }
  refine does_of_ok rfl (does_of_ok (v := w₀) rfl ?_)
  -- The module tells what the function returns and takes.
  obtain ⟨grades, hgrades, hlength⟩ := h.module.signed f (List.mem_of_getElem? hf)
  rw [hfname, hI] at hgrades
  obtain ⟨rfl, hret⟩ : sig.grades w.types = grades ∧ w.types.ir sig.ret = f.ret := by simpa using hgrades
  obtain ⟨hret_lt, hret_kind⟩ := hsig_lt sig.ret List.mem_cons_self
  have hw₀_names : ∀ scope ∈ w₀.scopes, ∀ s ∈ scope, w₀.types.Names I s := by
    intro sc hsc s hs
    rcases List.mem_cons.mp hsc with rfl | hsc
    · cases hs
    · rw [hscopes] at hsc
      exact hnames s (List.mem_singleton.mp hsc ▸ hs)
  obtain ⟨σ, hσ, hσ_fun, hσ_pending⟩ := exists_start (w := w₀) h.types hw₀_names hcurrent hblocks hentry (sig.grades w.types) rfl
  have hσ_returns : σ.Returns sig.ret := by
    refine ⟨by rw [hσ], by rw [hσ]; exact hret_lt, by rw [hσ]; exact hret_kind, ?_⟩
    rw [hσ, hσ_fun]
    exact hret.symm
  rw [← hσ]
  refine (σ.does_parameterList hns (fun p hp => ?_) (fun j p hp => ?_) ?_).at fun _ σ₁ hstays => ?_
  · rw [hσ]
    exact hsig_lt p.1 (List.mem_cons_of_mem _ (List.mem_map_of_mem hp))
  · rw [hσ, Nat.zero_add]
    simp [Signature.grades, hp, w₀]
  · rw [hσ]
    exact List.cons_ne_nil _ _
  have hσ₁_returns := hσ_returns.advances hstays.advances
  refine (Scene.lowers_statement hb σ₁ sig.ret hσ₁_returns hstays.inScope).at fun _ σ₂ ⟨hlead, hσ₂_scopes⟩ => ?_
  have hpending : σ₂.Pending {σ₂.block} := by
    have := hlead.pending ∅
    simp only [insert_empty_eq] at this
    exact this (hstays.block ▸ hσ_pending.transfer hstays.ends)
  refine (Scene.does_finish (hσ₁_returns.advances hlead.advances) hlead.symbols hpending).at
    fun _ τ ⟨hadv, hfinished, hτ_scopes⟩ => ?_
  have hadv := (hstays.advances.trans hlead.advances).trans hadv
  have hτ : τ.work.scopes.leave = w.scopes := by
    rw [hτ_scopes, hσ₂_scopes hdef]
    refine hstays.outer.trans ?_
    rw [hσ]
    rfl
  refine does_of_ok (v := { τ.work with scopes := w.scopes }) (by rw [← hτ]; rfl) (does_modify ⟨?_, rfl⟩)
  have htypes : w.types.Extends τ.work.types := by
    have := hadv.types
    rwa [hσ] at this
  have hmodule : τ.work.builder.module = w.builder.module.modifyFunction index fun _ => τ.function := by
    rw [hadv.builder, hσ]
    simp only [w₀, b₁, IR.Builder.update, IR.Module.modifyFunction, Option.getD_some, List.modify_modify_eq]
    rfl
  have hname' : τ.function.name = f.name := by rw [hadv.ledger.name, hσ_fun]; rfl
  have hparams' : τ.function.params = f.params := by rw [hadv.ledger.params, hσ_fun]; rfl
  have hret' : τ.function.ret = f.ret := by rw [hadv.ledger.ret, hσ_fun]; rfl
  have hwell : τ.function.WellFormed I :=
    τ.draft.wellFormed (by rw [hname', hfname, hret', ← hret]; exact hI) (by rw [hparams']; exact hlength) hfinished.ended hfinished.dead
  have hcases : ∀ g ∈ τ.work.builder.module.functions, g = τ.function ∨ g ∈ w.builder.module.functions := by
    intro g hg
    rw [hmodule] at hg
    obtain ⟨n, hn⟩ := List.mem_iff_getElem?.mp hg
    simp only [IR.Module.modifyFunction, List.getElem?_modify, Option.map_eq_map, Option.map_eq_some_iff] at hn
    obtain ⟨g₀, hg₀, rfl⟩ := hn
    split
    · exact .inl rfl
    · exact .inr (List.mem_of_getElem? hg₀)
  refine ⟨τ.types, ⟨scope, hscopes, fun s hs => (hnames s hs).grown h.types τ.types htypes⟩, ?_, fun g hg hgnew => ?_, fun g hg i hi => ?_⟩
  · show τ.work.builder.module.WellFormed I
    rw [hmodule]
    exact h.module.exchangeAt hf (by simp [IR.Function.head, hname', hparams', hret']) hwell
  · have hdefined : τ.work.defined = name :: w.defined := by rw [hadv.defined, hσ]
    have hgnew : g.name ∉ name :: w.defined := hdefined ▸ hgnew
    rw [List.mem_cons, not_or] at hgnew
    rcases hcases g hg with rfl | hg
    · exact absurd (hname'.trans hfname) hgnew.1
    · exact h.fresh g hg hgnew.2
  · rcases hcases g hg with rfl | hg
    · obtain ⟨b, B, hB, hi⟩ := IR.Function.mem_instructions.mp hi
      exact (τ.draft.blocks b B hB).no_phi i hi
    · exact h.no_phi g hg i hi

end Ember
