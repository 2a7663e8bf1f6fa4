import Ember.Proofs.Lower.Operation
import Ember.Proofs.Tree.Node

/-!
# Expressions lead from scene to scene

Lowering an expression appends typed instructions to the current block and opens no other; its operand fits.
-/

namespace Ember

open IR (Interface Grade Instruction Value Ty)

variable {I : Interface} {params : List Grade} {σ : Scene I params} {w : Workspace} {loc : Loc} {x : Operand} {form : Form Node}

open Lowering

/-- The operand of a literal: a constant that fits, or nothing. -/
theorem literal?_cases (h : form.literal? = some x) : (∃ (p : Primitive) (c : IR.Constant) (flag : Bool),
      x = { type := TypeTable.primitive p, value := .constant c, isLiteral := flag } ∧ c.Fits p.ir) ∨
      x = { type := TypeTable.primitive .void, value := .unit } := by
  cases form with
  | integer n =>
    cases h
    refine .inl ⟨_, _, _, rfl, ?_⟩
    split
    · rename_i hw
      exact ⟨rfl, nofun, hw⟩
    · exact ⟨rfl, nofun, rfl⟩
  | floating x | boolean b =>
    cases h
    exact .inl ⟨_, _, _, rfl, rfl⟩
  | string s forC =>
    cases h
    exact .inl ⟨_, _, _, rfl, by cases forC <;> rfl⟩
  | character code byte =>
    cases byte <;> cases h <;> exact .inl ⟨_, _, _, rfl, rfl, nofun, Ty.wrap_wrap _ _⟩
  | nothing =>
    cases h
    exact .inr rfl
  | _ => cases h

/-- Operands of literals are data. -/
theorem Spot.isDatum_literal (σ : Spot I params) (h : form.literal? = some x) : σ.IsDatum x := by
  rcases literal?_cases h with ⟨p, c, flag, rfl, hc⟩ | rfl
  · obtain ⟨h₁, h₂, h₃, h₄, h₅⟩ := Scene.isDatum_primitive (σ.holds_constant hc)
    exact ⟨h₁, h₂, h₃, h₄, h₅⟩
  · exact Scene.isDatum_primitive ⟨rfl, nofun⟩

/-- A literal is lowered to its operand. -/
theorem expression_literal (h : form.literal? = some x) : expression ⟨loc, form⟩ = pure x := by
  cases form <;> first | cases h; done | (rw [expression] <;> simp_all)

/-! ## The mark of a number -/

/-- Expressions whose operand may be marked as a number that was written, and so take the type of its context: numbers, names, and what
hands on the operand of such an expression. -/
inductive Node.MayBeLiteral : Node → Prop where
  | integer {loc : Loc} {n : Int64} : MayBeLiteral ⟨loc, .integer n⟩
  | floating {loc : Loc} {x : Double} : MayBeLiteral ⟨loc, .floating x⟩
  | name {n : Node} (name : String) : n.form = .identifier name ∨ n.form = .variable name → MayBeLiteral n
  | cast {loc : Loc} {inner : Node} {type : TypeRef} : MayBeLiteral inner → MayBeLiteral ⟨loc, .cast inner type⟩
  | plus {loc : Loc} {operand : Node} : MayBeLiteral operand → MayBeLiteral ⟨loc, .unary .unaryPlus operand⟩
  | assign {loc : Loc} {target value : Node} : MayBeLiteral value → MayBeLiteral ⟨loc, .assign .assign target value⟩

namespace Lowering

variable {α : Type} {x y l r target value : Operand} {id : TypeId} {P R : Prop} {step : Lowering α} {next : α → Lowering Operand}
  {family : Family} {op : Operator}

/-- The result of a step is marked as a number that was written only if something holds. -/
def Marks (P : Prop) (step : Lowering Operand) : Prop :=
  ∀ w y w', step w = .ok y w' → y.isLiteral = true → P

@[grind ←] theorem marks_pure (h : y.isLiteral = true → P) : Marks P (pure y) := by
  rintro w _ w' ⟨⟩ hy
  exact h hy

@[grind ←] theorem marks_throw {f : Fault} : Marks P (throw f) :=
  fun _ _ _ h => (run_throw.mp h).elim

@[grind ←] theorem Marks.bind (h : ∀ a, Marks P (next a)) : Marks P (step >>= next) := by
  intro w y w' hrun hy
  obtain ⟨a, w₁, -, hnext⟩ := run_bind.mp hrun
  exact h a w₁ y w' hnext hy

theorem Marks.after {step : Lowering Operand} {next : Operand → Lowering Operand} (h : Marks R step)
    (hnext : ∀ x, (x.isLiteral = true → R) → Marks P (next x)) : Marks P (step >>= next) := by
  intro w y w' hrun hy
  obtain ⟨x, w₁, hx, hrest⟩ := run_bind.mp hrun
  exact hnext x (h w x w₁ hx) w₁ y w' hrest hy

theorem Marks.imp {step : Lowering Operand} (h : Marks P step) (hPR : P → R) : Marks R step :=
  fun w y w' hrun hy => hPR (h w y w' hrun hy)

@[grind ←] theorem marks_unsupported : Marks P (unsupported op id loc) :=
  Marks.bind fun _ => marks_throw

theorem marks_read : Marks (x.isLiteral = true) (Lowering.read x) := by
  grind [Lowering.read]

/-- Only a conversion to the type itself keeps the mark. -/
theorem marks_cast {mode : CastMode} : Marks (x.isLiteral = true) (Lowering.cast mode x id loc) := by
  grind [Lowering.cast, mismatch]

theorem marks_adapt : Marks (x.isLiteral = true) (adapt x id) := by
  grind [adapt]

theorem marks_unary : Marks (op = .unaryPlus ∧ x.isLiteral = true) (family.unary op x loc) := by
  unfold Family.unary
  cases family with
  | integral =>
    refine marks_read.after fun x' hx' => Marks.bind fun type => ?_
    split
    · exact marks_cast.imp fun h => ⟨rfl, hx' h⟩
    · exact Marks.bind fun _ => Marks.bind fun _ => marks_pure nofun
    · exact Marks.bind fun _ => Marks.bind fun _ => marks_pure nofun
    · exact Marks.bind fun _ => Marks.bind fun _ => marks_pure nofun
    · exact marks_unsupported
  | floating =>
    refine Marks.bind fun _ => Marks.bind fun type => ?_
    split
    · exact Marks.bind fun _ => Marks.bind fun _ => marks_pure nofun
    · exact marks_unsupported
  | boolean =>
    refine Marks.bind fun _ => ?_
    split
    · exact Marks.bind fun _ => marks_pure nofun
    · exact marks_unsupported
  | _ => exact marks_unsupported

@[grind ←] theorem marks_compareAt {pred : IR.Predicate} : Marks P (compareAt pred id l r) := by
  grind [compareAt]

@[grind ←] theorem marks_combineAt {op : IR.BinaryOp} : Marks P (combineAt op id l r) := by
  grind [combineAt]

theorem marks_binary : Marks P (family.binary op l r loc) := by
  cases family <;> unfold Family.binary <;> dsimp only <;> grind

/-- The value of an assignment is the one that was stored. -/
theorem marks_assign : Marks (op = .assign ∧ value.isLiteral = true) (family.assign op target value loc) := by
  unfold Family.assign
  extract_lets go
  have hgo (u : Unit) : Marks (op = .assign ∧ value.isLiteral = true) (go u) := by
    refine Marks.bind fun type => ?_
    extract_lets store
    have hstore (stored : Operand) (h : stored.isLiteral = true → op = .assign ∧ value.isLiteral = true) :
        Marks (op = .assign ∧ value.isLiteral = true) (store stored) := by
      refine Marks.bind fun t => ?_
      extract_lets convert
      have hconvert (u : Unit) : Marks (op = .assign ∧ value.isLiteral = true) (convert u) :=
        marks_cast.after fun y hy => Marks.bind fun _ => Marks.bind fun _ => marks_pure fun h' => h (hy h')
      split
      · exact Marks.bind fun _ => Marks.bind fun _ => hconvert ()
      · exact hconvert ()
    split
    · exact marks_read.after fun stored hs => hstore stored fun h => ⟨‹_›, hs h⟩
    · split
      · exact Marks.after marks_unsupported hstore
      · exact Marks.bind fun _ => Marks.bind fun _ => marks_binary.after fun stored hs => hstore stored hs
  clear_value go
  grind

theorem marks_call {args : List Operand} : Marks P (Family.call x args loc) := by
  unfold Family.call
  split
  · refine Marks.bind fun t => ?_
    grind [breach]
  · exact Marks.bind fun _ => marks_throw

theorem marks_literal {form : Form Node} (h : form.literal? = some y) : Marks (Node.MayBeLiteral ⟨loc, form⟩) (pure y) := by
  refine marks_pure fun hy => ?_
  unfold Form.literal? at h
  split at h <;> cases h
  · exact .integer
  · exact .floating
  all_goals cases hy

theorem marks_expression (n : Node) : Marks n.MayBeLiteral (expression n) := by
  induction n using Node.induction with
  | h loc form ih =>
    cases hlit : form.literal? with
    | some x =>
      rw [expression_literal hlit]
      exact marks_literal hlit
    | none =>
      cases form with
      | identifier name => exact fun _ _ _ _ _ => .name name (.inl rfl)
      | «variable» name => exact fun _ _ _ _ _ => .name name (.inr rfl)
      | define binder init =>
        unfold expression bindLocal
        iterate 9 refine Marks.bind fun _ => ?_
        grind [Operand.place]
      | cast inner type =>
        unfold expression castTo
        refine (ih inner List.mem_cons_self).after fun o ho => marks_read.after fun x hx => Marks.bind fun _ => Marks.bind fun _ => ?_
        exact marks_cast.imp fun h => .cast (ho (hx h))
      | call callee args =>
        unfold expression
        exact Marks.bind fun _ => Marks.bind fun _ => Marks.bind fun _ => Marks.bind fun _ => marks_call
      | unary op operand =>
        unfold expression
        refine (ih operand List.mem_cons_self).after fun o ho => marks_read.after fun x hx => Marks.bind fun k => marks_unary.imp ?_
        rintro ⟨rfl, h⟩
        exact .plus (ho (hx h))
      | binary op left right =>
        unfold expression
        exact Marks.bind fun _ => Marks.bind fun _ => Marks.bind fun _ => Marks.bind fun _ => Marks.bind fun _ => Marks.bind fun _ => marks_binary
      | assign op target value =>
        unfold expression
        refine Marks.bind fun target' => (ih value (by simp [Form.children])).after fun o ho => marks_read.after fun x hx => ?_
        refine marks_adapt.after fun x' hx' => Marks.bind fun k => marks_assign.imp ?_
        rintro ⟨rfl, h⟩
        exact .assign (ho (hx (hx' h)))
      | member | subscript | slice =>
        unfold expression
        grind [unsupportedAccess]
      | _ =>
        unfold expression
        grind [breach]

end Lowering

/-- An operand is marked as a number that was written only if the expression is one, or hands one on. -/
theorem mayBeLiteral_of_expression {y : Operand} {w' : Workspace} {n : Node} (h : expression n w = .ok y w') (hy : y.isLiteral = true) :
    n.MayBeLiteral :=
  marks_expression n w y w' h hy

namespace Scene

variable {o x : Operand} {name : String} {n : Node}

/-- The meaning of a name fits. -/
theorem means_of_find? {s : Symbol} (h : σ.work.scopes.find? name = some s) : σ.Means s.operand := by
  obtain ⟨scope, hscope, hs⟩ := List.exists_of_findSome?_eq_some h
  exact σ.symbols scope hscope s (List.mem_of_find?_eq_some hs)

theorem reaches_lookup : σ.Reaches (lookup name loc) fun x τ => τ.Means x :=
  does_lookup fun _ hs => .here (means_of_find? hs)

/-- A type written by a word is a type that is no function. -/
theorem reaches_resolve {written : TypeRef} (hword : IsWord written.name) :
    σ.Reaches (resolve written) fun id τ => τ.work.types.Has id ∧ τ.work.types.kind id ≠ .function := by
  refine does_resolve fun id t ht => ?_
  obtain ⟨hx, hv, hlt, hk⟩ := σ.types.resolve hword ht
  obtain ⟨τ, happ, hw, -⟩ := σ.exists_retype hx hv
  refine ⟨τ, [], hw, happ, ?_⟩
  show τ.work.types.Has id ∧ τ.work.types.kind id ≠ .function
  rw [hw]
  exact ⟨hlt, hk⟩

theorem reaches_castTo {written : TypeRef} (hx : σ.IsRead x) (hword : IsWord written.name) :
    σ.Reaches (castTo x written loc) fun y τ => τ.IsDatum y := by
  refine (reaches_resolve hword).bind fun id τ chunk happ ⟨hlt, hk⟩ => τ.does_immutableOf hlt fun type hlt' _ hk' => ?_
  exact (reaches_cast (hx.appends happ) hlt' (hk' ▸ hk) (by simp)).imp fun _ _ _ _ hy => hy.1

/-- What is lowered is read. -/
theorem Reaches.read {step : Lowering Operand} (h : σ.Reaches step fun o τ => τ.Fits o) {α : Type} {next : Operand → Lowering α}
    {Q : α → Spot I params → Prop} (hnext : ∀ x (τ : Scene I params) chunk, σ.Appends τ.toSpot chunk → τ.IsRead x → τ.Reaches (next x) Q) :
    σ.Reaches (step >>= fun o => Lowering.read o >>= next) Q :=
  h.bind fun _ _ _ happ ho => (reaches_read ho).bind fun x υ _ happ' hx => hnext x υ _ (happ.trans happ') hx.1

/-- The table has the types of the parameters of a callee. -/
theorem reaches_parametersOf (hx : σ.IsRead x) : σ.Reaches (parametersOf x loc) fun ps τ => ∀ p ∈ ps, τ.work.types.Has p.1 := by
  refine does_kindOf hx.lt (does_ite (fun _ => .stop (does_unsupported hx.lt)) fun _ =>
    does_typesWith (hasTypes_single hx.lt) ?_)
  split
  · rename_i s hs
    exact reaches_pure fun p hp => (σ.types.signature hx.lt hs p.1 (List.mem_cons_of_mem _ (List.mem_map_of_mem hp))).2.lt
  · exact reaches_pure (by simp)

/-- Arguments are lowered one after the other. -/
theorem reaches_argumentList {args : List Node} (hargs : ∀ a ∈ args, ∀ {σ : Scene I params}, σ.Reaches (expression a) fun o τ => τ.Fits o)
    {parameters : List (TypeId × PassMode)} (hparams : ∀ p ∈ parameters, σ.work.types.Has p.1) :
    σ.Reaches (argumentList parameters args) fun xs τ => ∀ x ∈ xs, τ.Fits x := by
  induction args generalizing σ parameters with
  | nil =>
    rw [argumentList]
    exact reaches_pure (by simp)
  | cons a args ih =>
    -- The rest is lowered in the scene to which the argument led.
    have hrest : ∀ {τ : Scene I params} {chunk : List Instruction} {x : Operand}, σ.Appends τ.toSpot chunk → τ.Fits x →
        τ.Reaches (argumentList parameters.tail args >>= fun xs => pure (x :: xs)) fun xs υ => ∀ x ∈ xs, υ.Fits x := by
      intro τ chunk x happ hx
      refine Reaches.then (ih (fun b hb => hargs b (List.mem_cons_of_mem _ hb))
        fun p hp => happ.keeps.lt (hparams p (List.mem_of_mem_tail hp))) fun xs υ chunk' happ' hxs => ?_
      exact List.forall_mem_cons.mpr ⟨hx.appends happ', hxs⟩
    have ha : σ.Reaches (expression a) fun o τ => τ.Fits o := hargs a List.mem_cons_self
    rw [argumentList]
    split
    · exact reaches_lookup.bind fun _ _ _ happ hm => hrest happ hm.fits
    · rename_i hp _
      have hlt := hparams _ (List.mem_of_head? hp)
      exact ha.read fun y τ _ happ hy => (reaches_adapt hy (happ.keeps.lt hlt)).bind fun _ _ _ happ' hx => hrest (happ.trans happ') hx.fits
    · exact ha.read fun _ _ _ happ hy => hrest happ hy.fits

/-- Lowering an expression leads to a scene where its operand fits. -/
theorem reaches_expression (hn : n.IsExpression) : σ.Reaches (expression n) fun o τ => τ.Fits o := by
  induction hn generalizing σ with
  | @literal loc form hl =>
    obtain ⟨x, hx⟩ := Option.isSome_iff_exists.mp hl
    rw [expression_literal hx]
    exact reaches_pure (.inr (.inl (σ.isDatum_literal hx)))
  | identifier =>
    rw [expression]
    exact reaches_lookup.imp fun _ _ _ _ hm => hm.fits
  | «variable» =>
    rw [expression]
    exact reaches_lookup.bind fun _ _ _ _ hm => (reaches_read hm.fits).imp fun _ _ _ _ hx => hx.1.fits
  | cast _ _ hname ih =>
    rw [expression]
    exact ih.read fun x τ _ _ hx => (reaches_castTo hx hname.word).imp fun _ _ _ _ hd => .inr (.inl hd)
  | call _ _ _ _ ihc ihargs =>
    rw [expression]
    refine ihc.read fun callee τ _ _ hcallee => (reaches_parametersOf hcallee).bind fun ps υ _ happ hps => ?_
    refine (reaches_argumentList (fun a ha => ihargs a ha) hps).bind fun xs ρ _ happ' hxs => ?_
    exact (reaches_call ((hcallee.appends happ).appends happ') hxs).imp fun _ _ _ _ hd => .inr (.inl hd)
  | member _ _ _ ih | subscript _ _ _ _ ih | slice _ _ _ _ _ _ ih =>
    rw [expression]
    exact ih.bind fun o τ _ _ ho => does_nameOf ho.lt (does_throw rfl)
  | unary _ _ _ _ ih =>
    rw [expression]
    exact ih.read fun x τ _ _ hx => does_kindOf hx.lt ((reaches_applyUnary hx rfl).imp fun _ _ _ _ hd => .inr (.inl hd))
  | binary _ _ _ _ _ ihl ihr =>
    rw [expression]
    refine ihl.read fun l τ _ _ hl => ihr.read fun r υ _ happ hr => ?_
    refine (reaches_adaptPair (hl.appends happ) hr).bind fun p ρ _ _ ⟨hl', hr'⟩ => does_kindOf hl'.lt ?_
    exact (reaches_applyBinary hl' hr' rfl).imp fun _ _ _ _ hd => .inr (.inl hd)
  | assign _ _ _ _ _ iht ihv =>
    rw [expression]
    refine iht.bind fun target τ _ _ htarget => ihv.read fun x υ _ happ hx => ?_
    have htarget' := htarget.appends happ
    refine (reaches_adapt hx htarget'.lt).bind fun x' ρ _ happ' hx' => ?_
    have htarget'' := htarget'.appends happ'
    exact does_kindOf htarget''.lt ((reaches_assign htarget'' hx' rfl).imp fun _ _ _ _ hd => .inr (.inl hd))

end Scene

end Ember
