import Ember.Proofs.Lower.Run

/-!
# Calm steps

Most steps of lowering know nothing of the tree and give no name a meaning: they stop for reasons of their own (`Spares`) and leave the names
as they were (`Restores`). Both are said of each such step at once.
-/

namespace Ember

/-- A step that never finds the tree malformed. -/
def Spares {σ α : Type} (x : EStateM Fault σ α) : Prop :=
  ∀ s f s', x s = .error f s' → f.tag ≠ "GrammarError"

section Spares

variable {σ α β γ : Type} {x : EStateM Fault σ α} {next : α → EStateM Fault σ β} {f : Fault} {l : List γ}

theorem spares_of_ok (h : ∀ s, ∃ a s', x s = .ok a s') : Spares x := by
  intro s f s' hrun
  obtain ⟨a, s'', hok⟩ := h s
  rw [hok] at hrun
  cases hrun

@[grind ←] theorem spares_pure {a : α} : Spares (pure a : EStateM Fault σ α) :=
  spares_of_ok fun s => ⟨a, s, rfl⟩

@[grind ←] theorem spares_get : Spares (get : EStateM Fault σ σ) :=
  spares_of_ok fun s => ⟨s, s, rfl⟩

@[grind ←] theorem spares_modifyGet {change : σ → α × σ} : Spares (modifyGet change : EStateM Fault σ α) :=
  spares_of_ok fun s => ⟨_, _, modifyGet_apply change s⟩

@[grind ←] theorem spares_modify {change : σ → σ} : Spares (modify change : EStateM Fault σ Unit) :=
  spares_modifyGet

@[grind ←] theorem spares_throw (h : f.tag ≠ "GrammarError") : Spares (throw f : EStateM Fault σ α) := by
  intro s f' s' hrun
  rw [throw_apply] at hrun
  cases hrun
  exact h

/-- A sequence spares the tree if what comes behind each result does. -/
theorem Spares.then (hx : Spares x) (hnext : ∀ s a s', x s = .ok a s' → Spares (next a)) : Spares (x >>= next) := by
  intro s f s' hrun
  simp only [Bind.bind, EStateM.bind] at hrun
  split at hrun
  · exact hnext s _ _ ‹_› _ f s' hrun
  · cases hrun
    exact hx s f _ ‹_›

@[grind ←] theorem Spares.bind (hx : Spares x) (hnext : ∀ a, Spares (next a)) : Spares (x >>= next) :=
  hx.then fun _ a _ _ => hnext a

@[grind ←] theorem spares_throw_bind (h : f.tag ≠ "GrammarError") : Spares ((throw f : EStateM Fault σ α) >>= next) :=
  (spares_throw h).then fun _ _ _ hrun => (run_throw.mp hrun).elim

@[grind ←] theorem Spares.discard (hx : Spares x) : Spares (discard x) :=
  hx.bind fun _ => spares_pure

theorem spares_forM {step : γ → EStateM Fault σ Unit} (h : ∀ c ∈ l, Spares (step c)) : Spares (l.forM step) := by
  induction l with
  | nil => exact spares_pure
  | cons c l ih => exact (h c List.mem_cons_self).bind fun _ => ih fun d hd => h d (List.mem_cons_of_mem _ hd)

theorem spares_mapM {step : γ → EStateM Fault σ α} (h : ∀ c ∈ l, Spares (step c)) : Spares (l.mapM step) := by
  induction l with
  | nil => exact spares_pure
  | cons c l ih =>
    rw [List.mapM_cons]
    grind

end Spares

/-! ## Steps that know nothing of the tree -/

namespace IR.Build

variable {α : Type} {name : String} {type ret : Ty} {index : Nat} {id yes no : BlockId} {cond : Value} {value : Option Value}

@[grind ←] theorem spares_breach {cause : Breach} : Spares (breach cause : Build α) := by
  grind [breach, Fault.tag]

@[grind ←] theorem spares_function : Spares function := by
  grind [function]

@[grind ←] theorem spares_replace {f : Function} : Spares (replace index f) :=
  spares_modify

@[grind ←] theorem spares_block : Spares block := by
  grind [block]

@[grind ←] theorem spares_emit {i : Instruction} : Spares (emit i) := by
  grind [emit]

@[grind ←] theorem spares_terminate {t : Terminator} : Spares (terminate t) := by
  grind [terminate]

@[grind ←] theorem spares_register : Spares (register type) := by
  grind [register]

@[grind ←] theorem spares_define {i : Register → Instruction} : Spares (define type i) := by
  grind [define]

@[grind ←] theorem spares_slot : Spares (slot type) := by
  grind [slot]

@[grind ←] theorem spares_appendBlock : Spares (appendBlock name) := by
  grind [appendBlock]

@[grind ←] theorem spares_call {args : List Value} : Spares (call name args ret) := by
  grind [call]

@[grind ←] theorem spares_moveTo : Spares (moveTo id) :=
  spares_modify

@[grind ←] theorem spares_isTerminated : Spares isTerminated := by
  grind [isTerminated]

@[grind ←] theorem spares_jump : Spares (jump id) :=
  spares_terminate

@[grind ←] theorem spares_branch : Spares (branch cond yes no) :=
  spares_terminate

@[grind ←] theorem spares_ret : Spares (IR.Build.ret value) :=
  spares_terminate

@[grind ←] theorem spares_modifyModule {change : Module → Module} : Spares (modifyModule change) :=
  spares_modify

@[grind ←] theorem spares_declare {params : List (String × Ty)} : Spares (declare name params ret) := by
  grind [declare]

@[grind ←] theorem spares_enter : Spares (enter index) := by
  grind [enter]

end IR.Build

namespace Lowering

/-- A step that leaves the names as they were. -/
def Restores {α : Type} (x : Lowering α) : Prop :=
  ∀ w a w', x w = .ok a w' → w'.scopes = w.scopes

/-- A step that neither looks at the tree nor names anything. -/
structure Calm {α : Type} (x : Lowering α) : Prop where
  spares : Spares x
  restores : x.Restores

attribute [grind ←] Calm.spares Calm.restores

variable {α β : Type} {y : Lowering α} {next : α → Lowering β} {f : Fault} {id target : TypeId} {ids : List TypeId} {x l r : Operand}
  {loc : Loc} {name : String} {written : TypeRef} {op : Operator} {family : Family} {args : List Operand} {params : List (TypeId × PassMode)}
  {binder : Binder} {init : Option Operand} {n : Node}

@[grind ←] theorem Restores.bind (hy : Restores y) (hnext : ∀ a, Restores (next a)) : Restores (y >>= next) := by
  intro w b w' h
  obtain ⟨a, w₁, hrun, hrest⟩ := run_bind.mp h
  exact (hnext a w₁ b w' hrest).trans (hy w a w₁ hrun)

@[grind ←] theorem calm_pure {a : α} : Calm (pure a : Lowering α) := by
  refine ⟨spares_pure, ?_⟩
  rintro w b w' ⟨⟩
  rfl

@[grind ←] theorem calm_get : Calm (get : Lowering Workspace) := by
  refine ⟨spares_get, ?_⟩
  rintro w b w' ⟨⟩
  rfl

@[grind ←] theorem calm_modifyGet {change : Workspace → α × Workspace} (h : ∀ w, (change w).2.scopes = w.scopes) :
    Calm (modifyGet change : Lowering α) := by
  refine ⟨spares_modifyGet, fun w b w' hrun => ?_⟩
  cases (modifyGet_apply change w).symm.trans hrun
  exact h w

@[grind ←] theorem calm_modify {change : Workspace → Workspace} (h : ∀ w, (change w).scopes = w.scopes) :
    Calm (modify change : Lowering Unit) :=
  calm_modifyGet h

@[grind ←] theorem restores_throw : Restores (throw f : Lowering α) :=
  fun _ _ _ hrun => (run_throw.mp hrun).elim

@[grind ←] theorem calm_throw (h : f.tag ≠ "GrammarError") : Calm (throw f : Lowering α) :=
  ⟨spares_throw h, restores_throw⟩

@[grind ←] theorem Calm.bind (hy : Calm y) (hnext : ∀ a, Calm (next a)) : Calm (y >>= next) :=
  ⟨hy.spares.bind fun a => (hnext a).spares, hy.restores.bind fun a => (hnext a).restores⟩

/-- Nothing comes behind a step that always stops. -/
theorem Calm.stop (hy : Calm y) (hstop : ∀ w a w', y w ≠ .ok a w') : Calm (y >>= next) := by
  refine ⟨hy.spares.then fun w a w' hrun => (hstop w a w' hrun).elim, fun w b w' hrun => ?_⟩
  obtain ⟨a, w₁, hrun, -⟩ := run_bind.mp hrun
  exact (hstop w a w₁ hrun).elim

@[grind ←] theorem calm_throw_bind (h : f.tag ≠ "GrammarError") : Calm ((throw f : Lowering α) >>= next) :=
  (calm_throw h).stop fun _ _ _ hrun => run_throw.mp hrun

@[grind ←] theorem restores_build {step : IR.Build α} : Restores (build step) := by
  intro w a w' hrun
  unfold build at hrun
  split at hrun <;> cases hrun
  rfl

@[grind ←] theorem calm_build {step : IR.Build α} (h : Spares step) : Calm (build step) := by
  refine ⟨fun w f w' hrun => ?_, restores_build⟩
  unfold build at hrun
  split at hrun <;> cases hrun
  exact h _ _ _ ‹_›

@[grind ←] theorem calm_breach {cause : Breach} : Calm (breach cause : Lowering α) := by
  grind [breach, Fault.tag]

@[grind ←] theorem calm_tryTypes {step : TypeTable → Except Fault (α × TypeTable)}
    (h : ∀ t f, step t = .error f → f.tag ≠ "GrammarError") : Calm (tryTypes step) := by
  refine calm_get.bind fun w => ?_
  split
  · exact calm_throw (h _ _ ‹_›)
  · refine Calm.bind (calm_modify ?_) fun _ => calm_pure
    exact fun _ => rfl

@[grind ←] theorem calm_onTypes {step : TypeTable → α × TypeTable} : Calm (onTypes step) :=
  calm_modifyGet fun _ => rfl

@[grind ←] theorem calm_typesWith : Calm (typesWith ids) := by
  grind [typesWith, types]

@[grind ←] theorem calm_nameOf : Calm (nameOf id) := by
  grind [nameOf]

@[grind ←] theorem calm_irOf : Calm (irOf id) := by
  grind [irOf]

@[grind ←] theorem calm_kindOf : Calm (kindOf id) := by
  grind [kindOf]

@[grind ←] theorem calm_immutableOf : Calm (immutableOf id) := by
  grind [immutableOf]

@[grind ←] theorem calm_mutableOf : Calm (mutableOf id) := by
  grind [mutableOf]

@[grind ←] theorem calm_resolve : Calm (resolve written) := by
  grind [resolve, TypeTable.resolve, Fault.tag]

@[grind ←] theorem calm_warn {caution : Caution} : Calm (warn caution loc) :=
  calm_modify fun _ => rfl

@[grind ←] theorem calm_lookup : Calm (lookup name loc) := by
  grind [lookup, lookup?, Fault.tag]

@[grind ←] theorem calm_mismatch {expected : Wanted} : Calm (mismatch expected id loc : Lowering α) := by
  grind [mismatch, Fault.tag]

@[grind ←] theorem calm_mismatch_bind {expected : Wanted} : Calm ((mismatch expected id loc : Lowering α) >>= next) :=
  calm_mismatch.stop fun _ _ _ hrun => by simp [mismatch, run_bind, run_throw] at hrun

@[grind ←] theorem calm_unsupported : Calm (unsupported op id loc : Lowering α) := by
  grind [unsupported, Fault.tag]

@[grind ←] theorem calm_read : Calm (read x) := by
  grind [read, IR.Build.load]

@[grind ←] theorem calm_convert {op : IR.CastOp} {v : IR.Value} {source target : IR.Ty} : Calm (convert op v source target) := by
  unfold convert
  grind [IR.Build.cast]

@[grind ←] theorem calm_cast {mode : CastMode} : Calm (cast mode x target loc) := by
  grind [cast, notZero, IR.Build.compare]

@[grind ←] theorem calm_commonType : Calm (commonType l r loc) := by
  grind [commonType]

@[grind ←] theorem calm_compareAt {pred : IR.Predicate} : Calm (compareAt pred id l r) := by
  grind [compareAt, IR.Build.compare]

@[grind ←] theorem calm_combineAt {op : IR.BinaryOp} : Calm (combineAt op id l r) := by
  grind [combineAt, IR.Build.binary]

@[grind ←] theorem calm_unary : Calm (family.unary op x loc) := by
  unfold Family.unary
  grind [IR.Build.negate, IR.Build.complement, IR.Build.unary, IR.Build.compare]

@[grind ←] theorem calm_binary : Calm (family.binary op l r loc) := by
  unfold Family.binary
  grind [IR.Build.binary]

@[grind ←] theorem calm_assign : Calm (family.assign op l r loc) := by
  unfold Family.assign
  extract_lets go
  have hgo (u : Unit) : Calm (go u) := by
    refine calm_immutableOf.bind fun type => ?_
    extract_lets store
    have hstore (stored : Operand) : Calm (store stored) := by
      grind [IR.Build.store]
    grind
  clear_value go
  grind

@[grind ←] theorem calm_argument {mode : PassMode} {position : Nat} : Calm (Family.argument x id mode position loc) := by
  grind [Family.argument]

@[grind ←] theorem calm_arguments {position : Nat} : Calm (Family.arguments loc position args params) := by
  induction args generalizing position params with
  | nil => grind [Family.arguments]
  | cons arg args ih => cases params <;> grind [Family.arguments]

@[grind ←] theorem calm_call : Calm (Family.call x args loc) := by
  unfold Family.call
  split
  · refine calm_typesWith.bind fun t => ?_
    grind [Fault.tag]
  · exact calm_mismatch

@[grind ←] theorem calm_adapt : Calm (adapt x id) := by
  grind [adapt]

@[grind ←] theorem calm_adaptPair : Calm (adaptPair l r) := by
  grind [adaptPair, widthOf]

@[grind ←] theorem calm_coerce : Calm (coerce x id loc) := by
  grind [coerce]

@[grind ←] theorem calm_checkNotReserved : Calm (checkNotReserved name loc) := by
  grind [checkNotReserved, types, Fault.tag]

@[grind ←] theorem calm_checkSized : Calm (checkSized id loc) := by
  grind [checkSized, Fault.tag]

@[grind ←] theorem calm_localStart : Calm (localStart binder init id loc) := by
  unfold localStart
  grind

@[grind ←] theorem calm_castTo : Calm (castTo x written loc) := by
  grind [castTo]

@[grind ←] theorem calm_unsupportedAccess {attempt : Attempt} : Calm (unsupportedAccess attempt x loc) := by
  grind [unsupportedAccess, Fault.tag]

@[grind ←] theorem calm_parametersOf : Calm (parametersOf x loc) := by
  grind [parametersOf]

@[grind ←] theorem calm_jumpUnlessDone {block : IR.BlockId} : Calm (jumpUnlessDone block) := by
  grind [jumpUnlessDone]

@[grind ←] theorem calm_returnValue : Calm (returnValue init loc) := by
  refine calm_get.bind fun w => ?_
  split
  · exact calm_breach
  · refine calm_typesWith.bind fun t => ?_
    grind [Fault.tag]

@[grind ←] theorem calm_parameterParts : Calm (parameterParts n) := by
  unfold parameterParts
  grind

@[grind ←] theorem calm_isReachable : Calm isReachable := by
  grind [isReachable]

@[grind ←] theorem calm_finish : Calm (finish name id loc) := by
  grind [finish, IR.Build.unreachable, Fault.tag]

end Lowering

/-! ## What is made of calm steps -/

/-- The children that the check looks at. A loop variable takes its type from what is walked over, and the definition of a parameter is
looked at with the parameter. -/
def Form.checked {α : Type} : Form α → List α
  | .forEach _ iteratee body => [iteratee, body]
  | .parameter _ _ => []
  | form => form.children

/-- The children that are no statement of a list and nothing that is there to define a name. -/
def Form.confined {α : Type} : Form α → List α
  | .block _ => []
  | .forLoop _ cond step body => cond.toList ++ step.toList ++ [body]
  | form => form.checked

section

variable {α : Type} {form : Form α} {c : α}

theorem Form.mem_children_of_checked (h : c ∈ form.checked) : c ∈ form.children := by
  cases form <;> simp_all [checked, children]

theorem Form.mem_checked_of_confined (h : c ∈ form.confined) : c ∈ form.checked := by
  cases form with
  | block => cases h
  | forLoop => simp_all [confined, checked, children]
  | _ => exact h

theorem Form.mem_children_of_confined (h : c ∈ form.confined) : c ∈ form.children :=
  mem_children_of_checked (mem_checked_of_confined h)

end

namespace Lowering

/-- A property that calm steps have, and every sequence of steps that have it. -/
structure Closed (P : (α : Type) → Lowering α → Prop) : Prop where
  calm {α : Type} {x : Lowering α} : Calm x → P α x
  bind {α β : Type} {x : Lowering α} {next : α → Lowering β} : P α x → (∀ a, P β (next a)) → P β (x >>= next)

theorem closed_spares : Closed fun _ x => Spares x :=
  ⟨Calm.spares, Spares.bind⟩

theorem closed_restores : Closed fun _ x => Restores x :=
  ⟨Calm.restores, Restores.bind⟩

namespace Closed

variable {P : (α : Type) → Lowering α → Prop} (hP : Closed P) {α : Type} {n : Node} {ns : List Node} {loc : Loc} {form : Form Node}
  {value : Option Node}

include hP

theorem discard {x : Lowering α} (h : P α x) : P Unit (discard x) :=
  hP.bind h fun _ => hP.calm calm_pure

theorem read {next : Operand → Lowering α} (h : P _ (expression n)) (hnext : ∀ x, P _ (next x)) :
    P _ (expression n >>= fun x => Lowering.read x >>= next) :=
  hP.bind h fun _ => hP.bind (hP.calm calm_read) hnext

theorem argumentList (h : ∀ n ∈ ns, P _ (expression n)) (params : List (TypeId × PassMode)) : P _ (argumentList params ns) := by
  induction ns generalizing params with
  | nil =>
    unfold Lowering.argumentList
    exact hP.calm calm_pure
  | cons n ns ih =>
    obtain ⟨hn, hns⟩ := List.forall_mem_cons.mp h
    have hrest (x : Operand) := hP.bind (ih hns params.tail) fun xs => hP.calm (calm_pure (a := x :: xs))
    unfold Lowering.argumentList
    split
    · exact hP.bind (hP.calm calm_lookup) hrest
    · exact hP.read hn fun x => hP.bind (hP.calm calm_adapt) hrest
    · exact hP.read hn hrest

theorem expression (hdefine : ∀ binder init, form ≠ .define binder init) (h : ∀ c ∈ form.confined, P _ (expression c)) :
    P _ (expression ⟨loc, form⟩) := by
  cases form with
  | define binder init => exact absurd rfl (hdefine binder init)
  | identifier name =>
    unfold Lowering.expression
    exact hP.calm calm_lookup
  | «variable» name =>
    unfold Lowering.expression
    exact hP.bind (hP.calm calm_lookup) fun _ => hP.calm calm_read
  | cast inner type =>
    unfold Lowering.expression
    exact hP.read (h inner List.mem_cons_self) fun x => hP.calm calm_castTo
  | call callee args =>
    obtain ⟨hcallee, hargs⟩ := List.forall_mem_cons.mp h
    unfold Lowering.expression
    refine hP.read hcallee fun callee => hP.bind (hP.calm calm_parametersOf) fun params => ?_
    exact hP.bind (hP.argumentList hargs params) fun args => hP.calm calm_call
  | member object _ | subscript object _ | slice object _ _ =>
    unfold Lowering.expression
    exact hP.bind (h object List.mem_cons_self) fun x => hP.calm calm_unsupportedAccess
  | unary op operand =>
    unfold Lowering.expression
    exact hP.read (h operand List.mem_cons_self) fun x => hP.bind (hP.calm calm_kindOf) fun kind => hP.calm calm_unary
  | binary op left right =>
    obtain ⟨hleft, hright⟩ := List.forall_mem_cons.mp h
    unfold Lowering.expression
    refine hP.read hleft fun l => hP.read (hright right List.mem_cons_self) fun r => hP.bind (hP.calm calm_adaptPair) fun p => ?_
    exact hP.bind (hP.calm calm_kindOf) fun kind => hP.calm calm_binary
  | assign op target value =>
    obtain ⟨htarget, hvalue⟩ := List.forall_mem_cons.mp h
    unfold Lowering.expression
    refine hP.bind htarget fun target => hP.read (hvalue value List.mem_cons_self) fun x => hP.bind (hP.calm calm_adapt) fun x => ?_
    exact hP.bind (hP.calm calm_kindOf) fun kind => hP.calm calm_assign
  | _ =>
    unfold Lowering.expression
    refine hP.calm ?_
    split
    · exact calm_pure
    · exact calm_breach

theorem condition (h : P _ (Lowering.expression n)) : P _ (condition n) :=
  hP.read h fun _ => hP.bind (hP.calm calm_cast) fun _ => hP.calm calm_pure

theorem returnStatement (h : ∀ n, value = some n → P _ (Lowering.expression n)) : P _ (returnStatement value loc) := by
  refine hP.bind (hP.calm calm_get) fun w => ?_
  extract_lets rest
  have hrest (u : Unit) : P _ (rest u) := by
    simp only [rest]
    split
    · exact hP.calm calm_returnValue
    · exact hP.calm calm_returnValue
    · exact hP.read (h _ rfl) fun x => hP.calm calm_returnValue
  split
  · exact hP.bind (hP.calm calm_breach) hrest
  · exact hrest ()

end Closed

/-- A property `P` of steps with scopes that they leave, if the steps inside have the property `Q`, up to the last change that is named. -/
structure Scoped (P : (α : Type) → Lowering α → Prop) (Q : (Scopes → Scopes) → (α : Type) → Lowering α → Prop) : Prop extends
    Closed P where
  inside {α : Type} {x : Lowering α} : P α x → Q id α x
  name {symbol : Symbol} : Q id Unit (Lowering.bind symbol)
  «then» {α β : Type} {last : Scopes → Scopes} {x : Lowering α} {next : α → Lowering β} :
    Q id α x → (∀ a, Q last β (next a)) → Q last β (x >>= next)
  leave {α : Type} {rest : Unit → Lowering α} : P α (rest ()) → Q Scopes.leave α (leaveScope >>= rest)
  scope {α : Type} {rest : Unit → Lowering α} : Q Scopes.leave α (rest ()) → P α (enterScope >>= rest)

namespace Scoped

variable {P : (α : Type) → Lowering α → Prop} {Q : (Scopes → Scopes) → (α : Type) → Lowering α → Prop} (hP : Scoped P Q) {α β : Type}
  {last : Scopes → Scopes} {n : Node} {ns : List Node} {type : TypeId} {index : Nat}

include hP

theorem calmThen {x : Lowering α} {next : α → Lowering β} (hx : Calm x) (hnext : ∀ a, Q last β (next a)) : Q last β (x >>= next) :=
  hP.then (hP.inside (hP.calm hx)) hnext

theorem statementList (h : ∀ n ∈ ns, Q id _ (statement n)) : Q id _ (statementList ns) := by
  induction ns with
  | nil => exact hP.inside (hP.calm calm_pure)
  | cons n ns ih =>
    obtain ⟨hn, hns⟩ := List.forall_mem_cons.mp h
    refine hP.calmThen (calm_build IR.Build.spares_isTerminated) fun terminated => ?_
    split
    · exact hP.inside (hP.calm calm_warn)
    · exact hP.then hn fun _ => ih hns

theorem optional {o : Option Node} (h : ∀ n ∈ o.toList, Q id _ (statement n)) : Q id _ (optional o) := by
  cases o with
  | none => exact hP.inside (hP.calm calm_pure)
  | some n => exact h n (by simp)

theorem statement {loc : Loc} {form : Form Node} (hself : P _ (expression ⟨loc, form⟩)) (hexpr : ∀ c ∈ form.confined, P _ (expression c))
    (hall : ∀ c ∈ form.confined, P _ (statement c)) (hinside : ∀ c ∈ form.checked, Q id _ (statement c)) : P _ (statement ⟨loc, form⟩) := by
  cases form with
  | block stmts =>
    unfold Lowering.statement
    exact hP.scope (hP.then (hP.statementList hinside) fun _ => hP.leave (hP.calm calm_pure))
  | forLoop init cond step body =>
    simp only [Form.confined, Form.checked, Form.children, List.forall_mem_append, List.forall_mem_singleton] at hall hexpr hinside
    obtain ⟨⟨⟨hinit, -⟩, -⟩, -⟩ := hinside
    obtain ⟨⟨hcond, hstep⟩, -⟩ := hexpr
    obtain ⟨-, hbody⟩ := hall
    have hinit := hP.optional hinit
    have hcond := fun n hn => hP.condition (hcond n hn)
    have hstep := fun n hn => hP.discard (hstep n hn)
    cases cond <;> cases step <;> simp only [Option.toList, List.forall_mem_singleton] at hcond hstep <;> unfold Lowering.statement
    all_goals
      iterate 6 refine hP.bind (hP.calm (by grind)) fun _ => ?_
      refine hP.scope (hP.calmThen (by grind) fun _ => hP.then hinit fun _ => ?_)
      repeat' with_reducible first | refine hP.leave ?_ | refine hP.then (hP.inside ?_) fun _ => ?_
    all_goals first | with_reducible assumption | exact hP.calm (by grind)
  | empty =>
    unfold Lowering.statement
    exact hP.calm calm_pure
  | expression inner =>
    unfold Lowering.statement
    exact hP.discard (hexpr inner List.mem_cons_self)
  | branch cond yes no =>
    have hcond := hP.condition (hexpr cond List.mem_cons_self)
    have hyes := hall yes (List.mem_cons_of_mem _ List.mem_cons_self)
    cases no with
    | none =>
      unfold Lowering.statement
      repeat' with_reducible refine hP.bind ?_ fun _ => ?_
      all_goals first | with_reducible assumption | exact hP.calm (by grind)
    | some no =>
      have hno := hall no (by simp [Form.confined, Form.checked, Form.children])
      unfold Lowering.statement
      repeat' with_reducible refine hP.bind ?_ fun _ => ?_
      all_goals first | with_reducible assumption | exact hP.calm (by grind)
  | whileLoop cond body =>
    have hcond := hP.condition (hexpr cond List.mem_cons_self)
    have hbody := hall body (List.mem_cons_of_mem _ List.mem_cons_self)
    unfold Lowering.statement
    repeat' with_reducible refine hP.bind ?_ fun _ => ?_
    all_goals first | with_reducible assumption | exact hP.calm (by grind)
  | ret value =>
    unfold Lowering.statement
    exact hP.returnStatement fun n hn => hexpr n (by simp [Form.confined, Form.checked, Form.children, hn])
  | parameter =>
    unfold Lowering.statement
    exact hP.calm calm_breach
  | forEach | function | prototype | defineGlobal | importUnit | nameUnit | «alias» =>
    unfold Lowering.statement
    exact hP.calm (calm_throw (by simp [Fault.tag]))
  | _ =>
    unfold Lowering.statement
    exact hP.discard hself

theorem parameter {mode : PassMode} : Q id _ (parameter index n type mode) := by
  refine hP.calmThen calm_parameterParts fun p => hP.calmThen calm_checkNotReserved fun _ => ?_
  extract_lets named
  have hnamed (operand : Operand) : Q id _ (named operand) := hP.name
  split
  · exact hP.calmThen calm_mutableOf fun _ => hP.calmThen calm_pure hnamed
  · refine hP.calmThen calm_irOf fun ir => hP.calmThen (by grind) fun slot => hP.calmThen (by grind [IR.Build.store]) fun _ => ?_
    extract_lets placed
    have hplaced (type : TypeId) : Q id _ (placed type) := hP.calmThen calm_pure hnamed
    split
    · exact hP.calmThen calm_mutableOf hplaced
    · exact hP.calmThen calm_pure hplaced

theorem parameterList {params : List (TypeId × PassMode)} : Q id _ (parameterList index ns params) := by
  fun_induction Lowering.parameterList index ns params with
  | case1 index n ns type mode rest ih => exact hP.then hP.parameter fun _ => ih
  | case2 => exact hP.inside (hP.calm calm_pure)

theorem body {head : Node} (h : Q id _ (Lowering.statement n)) : P _ (body head n) := by
  unfold Lowering.body
  split
  · refine hP.bind (hP.calm calm_get) fun w => ?_
    extract_lets go
    have hgo (u : Unit) : P _ (go u) := by
      refine hP.bind (hP.calm (calm_modify ?_)) fun _ => hP.bind (hP.calm calm_lookup) fun callee => hP.bind (hP.calm calm_typesWith) fun t => ?_
      · exact fun _ => rfl
      split
      · exact hP.calm calm_breach
      · refine hP.bind (hP.calm calm_get) fun w => ?_
        split
        · exact hP.calm calm_breach
        · iterate 4 refine hP.bind (hP.calm (by grind)) fun _ => ?_
          refine hP.scope (hP.then hP.parameterList fun _ => hP.then h fun _ => ?_)
          refine hP.calmThen calm_finish fun _ => hP.leave (hP.calm (calm_modify ?_))
          exact fun _ => rfl
    split
    · exact hP.bind (hP.calm (calm_throw (by simp [Fault.tag]))) hgo
    · exact hgo ()
  · exact hP.calm calm_breach

end Scoped

end Lowering

end Ember
