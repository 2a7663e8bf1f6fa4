import Ember.Proofs.Lower.Calm
import Ember.Proofs.Tree.Arena
import Ember.Proofs.Tree.Node
import Ember.Tree.Grammar

/-!
# The shape check spares lowering

Three steps of lowering ask again what the shape check has asked: the type of a local variable, that of a parameter and the value of a
global. Every other step stops for reasons of its own (`Spares`), so a tree that passes the check is never called malformed by lowering.
-/

namespace Ember

/-! ## Trees that pass the check -/

namespace Node

variable {loc : Loc} {form : Form Node} {b : Binder} {init : Option Node}

theorem check_mk (loc : Loc) (form : Form Node) : check ⟨loc, form⟩ = checkForm loc (form.map fun n => (n, n.check)) :=
  recurse_mk _ _ _

theorem check_child (h : check ⟨loc, form⟩ = .ok ()) : ∀ c ∈ form.checked, c.check = .ok () := by
  have hmost (h : (form.map fun n => (n, n.check)).children.forM (·.2) = .ok ()) : ∀ c ∈ form.children, c.check = .ok () := by
    rw [IR.forM_eq_ok_iff, Form.children_map] at h
    exact fun c hc => h _ (List.mem_map.mpr ⟨c, hc, rfl⟩)
  rw [check_mk] at h
  cases form with
  | define b init | defineGlobal b init =>
    obtain ⟨_, _, h⟩ := IR.bind_eq_ok_iff.mp h
    cases init <;> simp_all [Form.checked, Form.children, Form.map]
  | parameter d mode => simp [Form.checked]
  | forEach i e b =>
    obtain ⟨_, he, hb⟩ := IR.bind_eq_ok_iff.mp h
    simp_all [Form.checked]
  | function head body declaration =>
    simp only [Form.map, checkForm] at h
    split at h
    · obtain ⟨_, hhead, h⟩ := IR.bind_eq_ok_iff.mp h
      cases body with
      | none => simp_all [Form.checked, Form.children]
      | some b =>
        simp only [Option.map] at h
        split at h <;> simp_all [Form.checked, Form.children]
    · cases h
  | _ => exact hmost h

theorem check_define (h : check ⟨loc, .define b init⟩ = .ok ()) : b.type.isSome ∨ init.isSome := by
  rw [check_mk] at h
  obtain ⟨_, h, _⟩ := IR.bind_eq_ok_iff.mp h
  cases init <;> cases htype : b.type <;> simp_all [Binder.defect?]
  grind

theorem check_defineGlobal (h : check ⟨loc, .defineGlobal b init⟩ = .ok ()) : init.isSome := by
  rw [check_mk] at h
  obtain ⟨_, _, h⟩ := IR.bind_eq_ok_iff.mp h
  cases init with
  | none => cases h
  | some n => rfl

theorem check_parameter {loc' : Loc} {mode : PassMode} (h : check ⟨loc, .parameter ⟨loc', .define b init⟩ mode⟩ = .ok ()) :
    b.type.isSome := by
  rw [check_mk] at h
  cases htype : b.type <;> simp_all [checkForm, Form.map, form, Binder.parameterDefect?]

end Node

namespace Lowering

variable {id target : TypeId} {x : Operand} {loc : Loc} {name : String} {written : TypeRef} {params : List (TypeId × PassMode)}
  {binder : Binder} {init : Option Operand} {n : Node} {ns : List Node} {index : Nat}

theorem tag_of_bind {s : Scopes} {symbol : Symbol} {f : Fault} (h : s.bind symbol = .error f) : f.tag ≠ "GrammarError" := by
  cases s <;> grind [Scopes.bind, Fault.tag]

@[grind ←] theorem spares_bind {symbol : Symbol} : Spares (bind symbol) := by
  refine spares_get.bind fun w => ?_
  grind [tag_of_bind]

/-! ### Expressions -/

@[grind ←] theorem spares_localType (h : binder.type.isSome ∨ init.isSome) : Spares (localType binder init loc) := by
  unfold localType
  grind

@[grind ←] theorem spares_bindLocal (h : binder.type.isSome ∨ init.isSome) : Spares (bindLocal binder init loc) := by
  refine (spares_localType h).bind fun _ => calm_immutableOf.spares.bind fun type => calm_checkSized.spares.bind fun _ => ?_
  grind [IR.Build.store]

theorem spares_expression (n : Node) (h : n.check = .ok ()) : Spares (expression n) := by
  induction n using Node.induction with
  | h loc form ih =>
    have hall : ∀ c ∈ form.checked, Spares (expression c) :=
      fun c hc => ih c (Form.mem_children_of_checked hc) (Node.check_child h c hc)
    by_cases hdefine : ∃ b init, form = .define b init
    · obtain ⟨b, init, rfl⟩ := hdefine
      have hdefine := Node.check_define h
      cases init with
      | none =>
        simp only [expression, initial, pure_bind]
        exact calm_checkNotReserved.spares.bind fun _ => spares_bindLocal (.inl (by simpa using hdefine))
      | some n =>
        simp only [expression, initial, bind_assoc, pure_bind]
        exact calm_checkNotReserved.spares.bind fun _ => closed_spares.read (hall n List.mem_cons_self) fun x => spares_bindLocal (.inr rfl)
    · exact closed_spares.expression (fun b init hb => hdefine ⟨b, init, hb⟩) fun c hc => hall c (Form.mem_checked_of_confined hc)

/-! ### Statements -/

theorem scoped_spares : Scoped (fun _ x => Spares x) fun _ _ x => Spares x where
  toClosed := closed_spares
  inside := id
  name := spares_bind
  «then» := Spares.bind
  leave h := spares_modify.bind fun _ => h
  scope h := spares_modify.bind fun _ => h

theorem spares_statement (n : Node) (h : n.check = .ok ()) : Spares (statement n) := by
  induction n using Node.induction with
  | h loc form ih =>
    have hchild := Node.check_child h
    have hall : ∀ c ∈ form.checked, Spares (statement c) := fun c hc => ih c (Form.mem_children_of_checked hc) (hchild c hc)
    have hexpr : ∀ c ∈ form.checked, Spares (expression c) := fun c hc => spares_expression c (hchild c hc)
    have hconfined {c : Node} : c ∈ form.confined → c ∈ form.checked := Form.mem_checked_of_confined
    exact scoped_spares.statement (spares_expression _ h) (fun c hc => hexpr c (hconfined hc)) (fun c hc => hall c (hconfined hc)) hall

/-! ### Items -/

theorem spares_constant (n : Node) : Spares (constant n) := by
  induction n using Node.induction with
  | h loc form ih =>
    by_cases hcast : ∃ inner type, form = .cast inner type
    · obtain ⟨inner, type, rfl⟩ := hcast
      unfold constant
      exact (ih inner List.mem_cons_self).bind fun x => calm_castTo.spares
    · have hfail : Spares (constant.fail form loc) := (calm_throw (by simp [Fault.tag])).spares
      rw [constant]
      · grind
      · exact fun inner type hc => hcast ⟨inner, type, hc⟩

theorem spares_global {init : Option Node} (h : init.isSome) : Spares (global binder init loc) := by
  obtain ⟨n, rfl⟩ := Option.isSome_iff_exists.mp h
  refine calm_checkNotReserved.spares.bind fun _ => (spares_constant n).bind fun x => ?_
  extract_lets bound
  have hbound (declared : TypeId) : Spares (bound declared) := by
    refine calm_immutableOf.spares.bind fun type => calm_checkSized.spares.bind fun _ => calm_coerce.spares.bind fun y => ?_
    grind [IR.Build.addGlobal, Fault.tag]
  clear_value bound
  grind

theorem spares_parameterType (h : n.check = .ok ()) : Spares (parameterType n) := by
  refine calm_parameterParts.spares.then fun w p w' hp => ?_
  have htype : p.1.type.isSome := by
    unfold parameterParts at hp
    split at hp
    · obtain ⟨rfl, -⟩ := run_pure.mp hp
      exact Node.check_parameter h
    · cases run_throw.mp hp
    · cases run_throw.mp hp
  grind

@[grind ←] theorem spares_debugTypes : Spares (debugTypes id) := by
  grind [debugTypes]

@[grind ←] theorem spares_newFunction {params : List (String × IR.Ty)} {ret : IR.Ty} {inlined : Bool} :
    Spares (newFunction name params ret id inlined loc) := by
  refine calm_checkNotReserved.spares.bind fun _ => (calm_build IR.Build.spares_declare).spares.bind fun index => calm_typesWith.spares.bind fun t => ?_
  extract_lets named
  have hnamed (debug) : Spares (named debug) := by
    grind [note]
  clear_value named
  grind

theorem spares_prototype (h : n.check = .ok ()) : Spares (prototype n) := by
  obtain ⟨loc, form⟩ := n
  cases form with
  | prototype name returns params inlined =>
    have hparams : Spares (params.mapM parameterType) := spares_mapM fun n hn => spares_parameterType (Node.check_child h n hn)
    unfold prototype
    repeat' with_reducible refine Spares.bind ?_ fun _ => ?_
    all_goals grind [onTypes, lookup?, Fault.tag]
  | _ => exact calm_breach.spares

theorem tag_of_addAlias {t : TypeTable} {f : Fault} (h : t.addAlias name target loc = .error f) : f.tag ≠ "GrammarError" := by
  grind [TypeTable.addAlias, Fault.tag]

theorem spares_declaration (h : n.check = .ok ()) : Spares (declaration n) := by
  fun_cases declaration n with
  | case1 => exact (calm_build IR.Build.spares_modifyModule).spares
  | case2 => exact spares_modify.bind fun _ => (calm_build IR.Build.spares_modifyModule).spares
  | case3 => grind [tag_of_addAlias]
  | case4 => exact spares_global (Node.check_defineGlobal h)
  | case5 _ head => exact spares_prototype (Node.check_child h head List.mem_cons_self)
  | case6 => exact spares_pure
  | case7 => grind [Fault.tag]

theorem spares_definition (h : n.check = .ok ()) : Spares (definition n) := by
  unfold definition
  split
  · exact scoped_spares.body (spares_statement _ (Node.check_child h _ (by simp [Form.checked, Form.children])))
  · exact spares_pure

theorem spares_unit (h : n.check = .ok ()) : Spares (unit n) := by
  have hitems : ∀ item ∈ n.items, item.check = .ok () := by
    obtain ⟨loc, form⟩ := n
    cases form with
    | block stmts => exact Node.check_child h
    | _ => simp [Node.items]
  refine Spares.bind ?_ fun _ => ?_
  · exact spares_forM fun item hi => spares_declaration (hitems item hi)
  · exact spares_forM fun item hi => spares_definition (hitems item hi)

end Lowering

/-! ## Trees in arenas -/

namespace Arena

variable (a : Arena) (parent : NodeId → Option NodeId)

/-- The tree below a node, as deep as the fuel goes. -/
def node (a : Arena) : (fuel : Nat) → NodeId → Node
  | 0, _ => default
  | fuel + 1, id => ⟨a.loc id, (a.form id).map (node a fuel)⟩

/-- The tree of an arena, which is no deeper than the arena has nodes. -/
def tree : Node :=
  a.node a.size a.root

/-- Checks the shape of what is below a node, child by child. -/
def checkFrom (a : Arena) : (fuel : Nat) → NodeId → Except Fault Unit
  | 0, _ => .ok ()
  | fuel + 1, id => Node.checkForm (a.loc id) ((a.form id).map fun c => (a.node fuel c, checkFrom a fuel c))

/-- Checks the shape of an arena. -/
def check : Except Fault Unit :=
  a.checkFrom a.size a.root

/-- The check of an arena is that of its tree. -/
theorem checkFrom_eq (fuel : Nat) (id : NodeId) : a.checkFrom fuel id = (a.node fuel id).check := by
  induction fuel generalizing id with
  | zero => rfl
  | succ fuel ih =>
    rw [node, Node.check_mk, Form.map_map, checkFrom]
    simp only [ih]
    rfl

theorem loc_withParents : (a.withParents parent).loc = a.loc := by
  funext id
  simp only [loc, withParents, Array.getElem?_mapIdx, Option.map_map]
  rfl

theorem node_withParents (fuel : Nat) : (a.withParents parent).node fuel = a.node fuel := by
  induction fuel with
  | zero => rfl
  | succ fuel ih =>
    funext id
    rw [node, node, ih, loc_withParents, form_withParents]

/-- The links to parents are no part of the tree. -/
theorem tree_solveParents : a.solveParents.tree = a.tree := by
  rw [solveParents_eq, tree, node_withParents, size_withParents, root_withParents, tree]

end Arena

/-- A tree that passes the shape check is never called malformed by lowering. The check of an arena is the check of its tree, and links to
parents make no difference to it. -/
theorem Arena.check_discharges (a : Arena) (n : Node) (file : SourceFile) (debugInfo : Bool) :
    (n.check = .ok () → ∀ f, (n.lower file debugInfo).1 = .error f → f.tag ≠ "GrammarError") ∧
      a.check = a.tree.check ∧ a.solveParents.tree = a.tree ∧ a.solveParents.check = a.check := by
  have hcheck (a : Arena) : a.check = a.tree.check := a.checkFrom_eq _ _
  refine ⟨fun h f hf => ?_, hcheck a, a.tree_solveParents, by rw [hcheck, hcheck, tree_solveParents]⟩
  unfold Node.lower at hf
  split at hf
  · cases hf
  · cases hf
    exact Lowering.spares_unit h _ f _ ‹_›

/-- A function with a loop whose variable has neither a type nor a value, which is nothing that the check looks at. -/
def Node.looping : Node :=
  let type (name : String) : TypeRef := { name, mutable := false, loc := .start }
  let param : Node := ⟨.start, .define { name := "x", type := some (type "i32"), inferred := false, mutable := false } none⟩
  let item : Node := ⟨.start, .define { name := "i", type := none, inferred := false, mutable := false } none⟩
  let loop : Node := ⟨.start, .forEach item ⟨.start, .variable "x"⟩ ⟨.start, .block []⟩⟩
  let head : Node := ⟨.start, .prototype "f" (type "void") [⟨.start, .parameter param .copy⟩] false⟩
  ⟨.start, .block [⟨.start, .function head (some ⟨.start, .block [param, loop]⟩) false⟩]⟩

/-- The check passes, and lowering stops for a reason of its own. -/
theorem Arena.check_discharges_looping : Node.looping.check = .ok () ∧
    ∃ f, (Node.looping.lower ⟨"a.em", ""⟩ false).1 = .error f ∧ f.tag ≠ "GrammarError" := by
  have hcheck : Node.looping.check = .ok () := rfl
  have hfail : (Node.looping.lower ⟨"a.em", ""⟩ false).1.toOption.isSome = false := by decide +kernel
  cases hrun : (Node.looping.lower ⟨"a.em", ""⟩ false).1 with
  | ok m => simp [hrun, Except.toOption] at hfail
  | error f => exact ⟨hcheck, f, rfl, (Arena.check_discharges ⟨#[], 0⟩ _ _ _).1 hcheck f hrun⟩

end Ember
