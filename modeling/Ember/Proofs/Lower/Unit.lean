import Ember.Proofs.Lower.Body

/-!
# Lowering a unit

First every item is declared, then every function gets its body. After the declarations the module has no bodies, and what it offers
is read off the names of the unit: that is the interface for which all bodies are lowered. The main statements are that lowering a tree
of the parser fails by the source's fault only, and that the module which comes out is well formed.
-/

namespace Ember

open IR (Interface Grade Grading Ledger Instruction Terminator Register Block BlockId Value Ty)

open Lowering

variable {w : Workspace} {loc : Loc}

/-! ## Constants -/

/-- The operand is a constant of the representation of its type. -/
structure TypeTable.IsConstant (t : TypeTable) (x : Operand) : Prop where
  isPlace : x.isPlace = false
  lt : x.type < t.entries.length
  kind : t.kind x.type ≠ .function
  value : ∃ c, x.value = .constant c ∧ c.Fits (t.ir x.type)

namespace Lowering

section Constants

variable {x : Operand} (hv : w.types.Valid)
include hv

/-- Literals that have a constant are constants. -/
theorem isConstant_literal {form : Form Node} (h : form.literal? = some x) (hc : x.value.constant?.isSome = true) :
    w.types.IsConstant x := by
  rcases literal?_cases h with ⟨p, c, flag, rfl, hfits⟩ | rfl
  · exact ⟨rfl, (List.getElem?_eq_some_iff.mp (hv.primitive p)).1, by simp [hv.kind_primitive], c, rfl, by rwa [hv.ir_primitive]⟩
  · cases hc

variable {target : TypeId}

/-- A conversion of a constant is folded. -/
theorem does_cast {mode : CastMode} (hx : w.types.IsConstant x) (ht : w.types.Has target)
    (hk : w.types.kind target ≠ .function) (hmode : mode ≠ .bitcast) :
    Does (cast mode x target loc) w fun y w' => w' = w ∧ w.types.IsConstant y ∧ y.type = target := by
  obtain ⟨c, hc, hfits⟩ := hx.value
  refine does_typesWith (hasTypes_pair hx.lt ht) ?_
  cases hp : w.types.plan? x.type target mode with
  | none => exact does_mismatch hx.lt
  | some plan =>
    obtain ⟨hsuits, -⟩ := hv.plan?_suits hx.lt ht hmode hp
    cases plan with
    | identity => exact does_pure ⟨rfl, hx, TypeTable.eq_of_plan?_identity hp⟩
    | retag => exact does_pure ⟨rfl, ⟨rfl, ht, hk, c, hc, hsuits ▸ hfits⟩, rfl⟩
    | convert op =>
      obtain ⟨c', hc', hfits'⟩ := IR.CastOp.result?_fits hsuits hfits
      refine does_of_ok (a := .constant c') (v := w) ?_ (does_pure ⟨rfl, ⟨rfl, ht, hk, c', rfl, hfits'⟩, rfl⟩)
      unfold convert
      rw [hc]
      dsimp only
      rw [hc']
      rfl
    | notZero =>
      obtain ⟨hp', hz⟩ := Scene.zeroTest_suits hsuits.1
      obtain ⟨c', hc', hbool⟩ := IR.Predicate.result?_fits hp' hfits hz
      refine does_of_ok (a := .constant c') (v := w) ?_ (does_pure ⟨rfl, ⟨rfl, ht, hk, c', rfl, hsuits.2 ▸ hbool⟩, rfl⟩)
      unfold zeroTest at hc'
      unfold notZero
      generalize (if (w.types.ir x.type).isFloat then _ else _ : IR.Predicate × IR.Constant) = test at hc' ⊢
      obtain ⟨pred, zero⟩ := test
      simp only [hc, IR.Value.constant?, Option.bind_some, hc']
      rfl

/-- A written type is entered in the table. -/
theorem does_written {β : Type} {P : β → Workspace → Prop} {next : TypeId → Lowering β} {written : TypeRef} (hword : IsWord written.name)
    (hnext : ∀ t id, w.types.Extends t → t.Valid → t.Has id → t.kind id ≠ .function →
      Does (next id) { w with types := t } P) : Does (resolve written >>= next) w P := by
  refine (does_resolve fun id t ht => ⟨rfl, hv.resolve hword ht⟩).bind
    (Q := fun id w' => w' = { w with types := w'.types } ∧ w.types.Extends w'.types ∧ w'.types.Valid ∧
      w'.types.Has id ∧ w'.types.kind id ≠ .function) fun id w' ⟨hw, hx, hv', hlt, hk⟩ => ?_
  rw [hw]
  exact hnext _ id hx hv' hlt hk

/-- A literal takes the type of its context and stays a constant. -/
theorem does_adapt (hx : w.types.IsConstant x) (ht : w.types.Has target) :
    Does (adapt x target) w fun y w' => w' = w ∧ w.types.IsConstant y := by
  obtain ⟨hlt, -⟩ := hv.paired.unqualified ht
  refine does_ite (fun _ => does_pure ⟨rfl, hx⟩) fun _ => does_immutableOf hv ht (does_typesWith (hasTypes_single hlt) ?_)
  cases ha : (w.types.kind (w.types.unqualified target)).adapt? (w.types.ir (w.types.unqualified target)) x.value with
  | none => exact does_pure ⟨rfl, hx⟩
  | some c =>
    obtain ⟨hk, hfits⟩ := hv.adapt?_fits hlt ha
    exact does_pure ⟨rfl, ⟨rfl, hlt, hk, c, rfl, hfits⟩⟩

theorem does_coerce (hx : w.types.IsConstant x) (ht : w.types.Has target) (hk : w.types.kind target ≠ .function) :
    Does (coerce x target loc) w fun y w' => w' = w ∧ w.types.IsConstant y ∧ y.type = target := by
  refine (does_adapt hv hx ht).bind fun x' w' ⟨hw, hx'⟩ => ?_
  subst hw
  exact does_typesWith (hasTypes_pair hx'.lt ht) (does_ite (fun _ => does_mismatchAt ht hx'.lt) fun _ => does_cast hv hx' ht hk nofun)

end Constants

/-- A constant stays one when types are entered. -/
theorem isConstant_grown {t t' : TypeTable} {x : Operand} (h : t.IsConstant x) (hv : t.Valid) (hv' : t'.Valid) (hx : t.Extends t') :
    t'.IsConstant x where
  isPlace := h.isPlace
  lt := Nat.lt_of_lt_of_le h.lt hx.length_le
  kind := by rw [hx.kind hv.ordered hv'.ordered h.lt]; exact h.kind
  value := by rw [hx.ir h.lt]; exact h.value

/-- The initial value of a global is a constant. -/
theorem does_constant {n : Node} (hn : n.IsExpression) (hv : w.types.Valid) :
    Does (constant n) w fun x w' => ∃ t, w' = { w with types := t } ∧ w.types.Extends t ∧ t.Valid ∧ t.IsConstant x := by
  have hplain : ∀ (loc : Loc) (form : Form Node), (∀ inner type, form ≠ .cast inner type) → Does (constant ⟨loc, form⟩) w fun x w' =>
      ∃ t, w' = { w with types := t } ∧ w.types.Extends t ∧ t.Valid ∧ t.IsConstant x := by
    intro loc form hform
    rw [constant]
    · split
      · rename_i hl
        exact does_ite (fun hc => does_pure ⟨w.types, rfl, .refl _, hv, isConstant_literal hv hl hc⟩) fun _ => does_throw rfl
      · exact does_throw rfl
    · exact hform
  induction hn with
  | @cast loc inner type _ _ hname ih =>
    rw [constant]
    refine ih.bind fun x w' h => ?_
    obtain ⟨t, rfl, hx, hv', hconst⟩ := h
    unfold castTo
    refine does_written (w := { w with types := t }) hv' hname.word fun t' id hx' hv'' hlt hk => ?_
    refine does_immutableOf (w := { w with types := t' }) hv'' hlt ?_
    obtain ⟨hlt', -, hk', -⟩ := hv''.paired.unqualified hlt
    refine (does_cast (w := { w with types := t' }) hv'' (isConstant_grown hconst hv' hv'' hx') hlt' (hk' ▸ hk) (by simp)).imp
      fun y w' h => ?_
    exact ⟨t', h.1, hx.trans hx', hv'', h.2.1⟩
  | @literal loc form h =>
    refine hplain loc form ?_
    rintro _ _ rfl
    cases h
  | _ => exact hplain _ _ (by simp)

end Lowering

/-! ## Declarations -/

theorem IR.Module.modify_length_append {α : Type} (l : List α) (a : α) (change : α → α) :
    (l ++ [a]).modify l.length change = l ++ [change a] := by
  induction l with
  | nil => rfl
  | cons x l ih => simp [ih]

/-- An interface with one more function. -/
def IR.Interface.withFunction (I : Interface) (name : String) (s : List Grade × Ty) : Interface :=
  { I with signature? := fun n => if n = name then some s else I.signature? n }

/-- An interface with one more global. -/
def IR.Interface.withGlobal (I : Interface) (g : IR.Global) : Interface :=
  { I with cell? := fun n => if n = g.name then some (g.type, g.mutable) else I.cell? n }

variable {I : Interface}

variable {t : TypeTable} {name : String} {scope : Scope} {n : Node}

theorem TypeTable.Names.withFunction {s : Symbol} (h : t.Names I s) (hne : s.name ≠ name) (signature : List Grade × Ty) :
    t.Names (I.withFunction name signature) s where
  lt := h.lt
  function := fun hs => by
    obtain ⟨hp, hvalue, sig, hsig, hI⟩ := h.function hs
    exact ⟨hp, hvalue, sig, hsig, (if_neg hne).trans hI⟩
  global := h.global

theorem TypeTable.Names.withGlobal {s : Symbol} (h : t.Names I s) {g : IR.Global} (hne : s.name ≠ g.name) : t.Names (I.withGlobal g) s where
  lt := h.lt
  function := h.function
  global := fun hs => by
    obtain ⟨hp, hvalue, hk, hI⟩ := h.global hs
    exact ⟨hp, hvalue, hk, (if_neg hne).trans hI⟩

/-- A workspace between two declarations: the names of the unit are those of the module, and no function has a body. -/
structure Outlined (I : Interface) (w : Workspace) (scope : Scope) : Prop where
  types : w.types.Valid
  scopes : w.scopes = [scope]
  names : ∀ s ∈ scope, w.types.Names I s
  module : w.builder.module.WellFormed I
  declared : ∀ f ∈ w.builder.module.functions, f.blocks = [] ∧ f.entry = 0
  functions : ∀ f ∈ w.builder.module.functions, ∃ s, scope.find? (·.name == f.name) = some s ∧ s.isFunction = true
  globals : ∀ g ∈ w.builder.module.globals, ∃ s ∈ scope, s.name = g.name

namespace Outlined

variable {scope : Scope}

section

variable (h : Outlined I w scope)
include h

/-- Types that are entered change nothing else. -/
theorem retype {t : TypeTable} (hx : w.types.Extends t) (hv : t.Valid) : Outlined I { w with types := t } scope :=
  ⟨hv, h.scopes, fun s hs => (h.names s hs).grown h.types hv hx, h.module, h.declared, h.functions, h.globals⟩

/-- What a name stands for. -/
theorem find?_eq (name : String) : w.scopes.find? name = scope.find? (·.name == name) := by
  rw [h.scopes, Scopes.find?_singleton]

variable {s : Symbol} {b : IR.Builder}

omit h in
/-- The older names keep their meaning. -/
theorem find?_cons {symbol : Symbol} (hnew : ∀ x ∈ scope, x.name ≠ symbol.name) {name : String}
    (hs : scope.find? (·.name == name) = some s) : (symbol :: scope).find? (·.name == name) = some s := by
  have hname : s.name = name := by simpa using List.find?_some hs
  rw [List.find?_cons, hs]
  have : (symbol.name == name) = false := by
    rw [beq_eq_false_iff_ne, ← hname]
    exact fun heq => hnew s (List.mem_of_find?_eq_some hs) heq.symm
  simp [this]

theorem find?_kept {symbol : Symbol} (hnew : ∀ x ∈ scope, x.name ≠ symbol.name) {name : String} (hs : w.scopes.find? name = some s) :
    Scopes.find? [symbol :: scope] name = some s := by
  rw [h.find?_eq] at hs
  rw [Scopes.find?_singleton, find?_cons hnew hs]

/-- A function of the module has a name in the scope. -/
theorem exists_name {f : IR.Function} (hf : f ∈ w.builder.module.functions) : ∃ s ∈ scope, s.name = f.name := by
  obtain ⟨s, hs, -⟩ := h.functions f hf
  exact ⟨s, List.mem_of_find?_eq_some hs, by simpa using List.find?_some hs⟩

/-- A new global. -/
theorem addGlobal {g : IR.Global} (hname : s.name = g.name) (hnew : ∀ x ∈ scope, x.name ≠ g.name) (hs : w.types.Names (I.withGlobal g) s)
    (hfits : g.init.Fits g.type) (hfunctions : b.module.functions = w.builder.module.functions)
    (hglobals : b.module.globals = w.builder.module.globals ++ [g]) :
    Outlined (I.withGlobal g) { w with scopes := [s :: scope], builder := b } (s :: scope) := by
  have hfresh : ∀ x ∈ w.builder.module.globals, x.name ≠ g.name := by
    intro x hx heq
    obtain ⟨s', hs', hs'x⟩ := h.globals x hx
    exact hnew s' hs' (hs'x.trans heq)
  have hall : ∀ x ∈ b.module.globals, x ∈ w.builder.module.globals ∨ x = g := fun x hx => by simpa [hglobals] using hx
  have hdeclared : ∀ x ∈ b.module.functions, x.blocks = [] ∧ x.entry = 0 := hfunctions ▸ h.declared
  refine ⟨h.types, rfl, fun x hx => ?_, ⟨hfunctions ▸ h.module.names, ?_, hfunctions ▸ h.module.signed, hfunctions ▸ h.module.callable,
    fun f hf hd => ?_, fun x hx => ?_, fun name type hc => ?_⟩, hdeclared, fun f hf => ?_, fun x hx => ?_⟩
  · rcases List.mem_cons.mp hx with rfl | hx
    · exact hs
    · exact (h.names x hx).withGlobal (hnew x hx)
  · show (b.module.globals.map _).Nodup
    rw [hglobals]
    exact nodup_map_concat h.module.global_names hfresh
  · simp [IR.Function.isDeclaration, (hdeclared f hf).1] at hd
  · rcases hall x hx with hx | rfl
    · exact ⟨(if_neg (hfresh x hx)).trans (h.module.globals x hx).1, (h.module.globals x hx).2⟩
    · exact ⟨if_pos rfl, hfits⟩
  · have hc : (if name = g.name then some (g.type, g.mutable) else I.cell? name) = some type := hc
    show ∃ x ∈ b.module.globals, _
    rw [hglobals]
    split at hc
    · exact ⟨g, by simp, by symm; assumption⟩
    · obtain ⟨x, hx, hxn⟩ := h.module.cells name type hc
      exact ⟨x, List.mem_append_left _ hx, hxn⟩
  · have hf : f ∈ b.module.functions := hf
    obtain ⟨x, hx, hxf⟩ := h.functions f (hfunctions ▸ hf)
    exact ⟨x, find?_cons (hname ▸ hnew) hx, hxf⟩
  · rcases hall x hx with hx | rfl
    · obtain ⟨y, hy, hyn⟩ := h.globals x hx
      exact ⟨y, List.mem_cons_of_mem _ hy, hyn⟩
    · exact ⟨s, List.mem_cons_self, hname⟩

/-- A new function. -/
theorem addFunction {f : IR.Function} (grades : List Grade) (hname : s.name = f.name) (hnew : ∀ x ∈ scope, x.name ≠ f.name)
    (hs : w.types.Names (I.withFunction f.name (grades, f.ret)) s) (hlength : grades.length = f.params.length)
    (hdeclared : f.blocks = [] ∧ f.entry = 0) (hsymbol : s.isFunction = true)
    (hfunctions : b.module.functions = w.builder.module.functions ++ [f]) (hglobals : b.module.globals = w.builder.module.globals) :
    Outlined (I.withFunction f.name (grades, f.ret)) { w with scopes := [s :: scope], builder := b } (s :: scope) := by
  have hfresh : ∀ x ∈ w.builder.module.functions, x.name ≠ f.name := by
    intro x hx heq
    obtain ⟨s', hs', hs'x⟩ := h.exists_name hx
    exact hnew s' hs' (hs'x.trans heq)
  have hall : ∀ x ∈ b.module.functions, x ∈ w.builder.module.functions ∨ x = f := fun x hx => by simpa [hfunctions] using hx
  have hdeclared' : ∀ x ∈ b.module.functions, x.blocks = [] ∧ x.entry = 0 := fun x hx =>
    (hall x hx).elim (h.declared x) fun hx => hx ▸ hdeclared
  refine ⟨h.types, rfl, fun x hx => ?_, ⟨?_, hglobals ▸ h.module.global_names, fun x hx => ?_, fun name sig hc => ?_, fun x hx hd => ?_,
    hglobals ▸ h.module.globals, hglobals ▸ h.module.cells⟩, hdeclared', fun x hx => ?_, fun x hx => ?_⟩
  · rcases List.mem_cons.mp hx with rfl | hx
    · exact hs
    · exact (h.names x hx).withFunction (hnew x hx) _
  · show (b.module.functions.map _).Nodup
    rw [hfunctions]
    exact nodup_map_concat h.module.names hfresh
  · rcases hall x hx with hx | rfl
    · obtain ⟨grades', hI, hl⟩ := h.module.signed x hx
      exact ⟨grades', (if_neg (hfresh x hx)).trans hI, hl⟩
    · exact ⟨grades, if_pos rfl, hlength⟩
  · have hc : (if name = f.name then some (grades, f.ret) else I.signature? name) = some sig := hc
    show ∃ g ∈ b.module.functions, _
    rw [hfunctions]
    split at hc
    · exact ⟨f, by simp, by symm; assumption⟩
    · obtain ⟨x, hx, hxn⟩ := h.module.callable name sig hc
      exact ⟨x, List.mem_append_left _ hx, hxn⟩
  · simp [IR.Function.isDeclaration, (hdeclared' x hx).1] at hd
  · rcases hall x hx with hx | rfl
    · obtain ⟨y, hy, hyf⟩ := h.functions x hx
      exact ⟨y, find?_cons (hname ▸ hnew) hy, hyf⟩
    · exact ⟨s, by simp [hname], hsymbol⟩
  · have hx : x ∈ b.module.globals := hx
    obtain ⟨y, hy, hyn⟩ := h.globals x (hglobals ▸ hx)
    exact ⟨y, List.mem_cons_of_mem _ hy, hyn⟩

/-- What stays when only other parts of the module change. -/
theorem rebuild (journal : Journal) (hfunctions : b.module.functions = w.builder.module.functions)
    (hglobals : b.module.globals = w.builder.module.globals) : Outlined I { w with builder := b, journal } scope where
  types := h.types
  scopes := h.scopes
  names := h.names
  module := ⟨hfunctions ▸ h.module.names, hglobals ▸ h.module.global_names, hfunctions ▸ h.module.signed,
    hfunctions ▸ h.module.callable, hfunctions ▸ h.module.bodies, hglobals ▸ h.module.globals, hglobals ▸ h.module.cells⟩
  declared := hfunctions ▸ h.declared
  functions := hfunctions ▸ h.functions
  globals := hglobals ▸ h.globals

/-- A mark on a function changes nothing that others see of it. -/
theorem mark (index : Nat) {change : IR.Function → IR.Function}
    (hchange : ∀ f, (change f).head = f.head ∧ (change f).blocks = f.blocks ∧ (change f).entry = f.entry) :
    Outlined I { w with builder := { w.builder with module := w.builder.module.modifyFunction index change } } scope := by
  have hall : ∀ f ∈ (w.builder.module.modifyFunction index change).functions, ∃ f₀ ∈ w.builder.module.functions,
      f.head = f₀.head ∧ f.blocks = f₀.blocks ∧ f.entry = f₀.entry := by
    intro f hf
    obtain ⟨n, hn⟩ := List.mem_iff_getElem?.mp hf
    simp only [IR.Module.modifyFunction, List.getElem?_modify, Option.map_eq_map, Option.map_eq_some_iff] at hn
    obtain ⟨f₀, hf₀, rfl⟩ := hn
    refine ⟨f₀, List.mem_of_getElem? hf₀, ?_⟩
    split
    · exact hchange f₀
    · exact ⟨rfl, rfl, rfl⟩
  have hdeclared : ∀ f ∈ (w.builder.module.modifyFunction index change).functions, f.blocks = [] ∧ f.entry = 0 := by
    intro f hf
    obtain ⟨f₀, hf₀, -, hblocks, hentry⟩ := hall f hf
    rw [hblocks, hentry]
    exact h.declared f₀ hf₀
  refine ⟨h.types, h.scopes, h.names, h.module.exchange rfl (List.forall₂_iff_get.mpr ⟨by simp [IR.Module.modifyFunction], fun n hn hn' => ⟨?_, ?_⟩⟩),
    hdeclared, fun f hf => ?_, h.globals⟩
  · simp only [List.get_eq_getElem, IR.Module.modifyFunction, List.getElem_modify]
    split
    · exact (hchange _).1
    · rfl
  · have hnone := (hdeclared _ (List.get_mem _ ⟨n, hn'⟩)).1
    intro hd
    rw [IR.Function.isDeclaration, hnone] at hd
    exact absurd hd (by decide)
  · obtain ⟨f₀, hf₀, hhead, -⟩ := hall f hf
    rw [show f.name = f₀.name from congrArg Prod.fst hhead]
    exact h.functions f₀ hf₀

end

/-- A new name in the scope of the unit. -/
theorem does_bind (h : w.scopes = [scope]) (symbol : Symbol) :
    Does (bind symbol) w fun _ w' => w' = { w with scopes := [symbol :: scope] } ∧ ∀ x ∈ scope, x.name ≠ symbol.name := by
  refine Lowering.does_bind h fun hnone => ⟨rfl, fun x hx heq => ?_⟩
  simpa [heq] using List.find?_eq_none.mp hnone x hx

end Outlined

/-- A declaration leads from outline to outline, and names keep their meaning. -/
def Lowering.Declares (x : Lowering Unit) (P : Workspace → Prop) : Prop :=
  ∀ (I : Interface) (w : Workspace) (scope : Scope), Outlined I w scope →
    Does x w fun _ w' => P w' ∧ ∃ I' scope', Outlined I' w' scope' ∧
      ∀ name s, w.scopes.find? name = some s → w'.scopes.find? name = some s

/-- There is an outline still, and names mean what they meant. -/
abbrev Workspace.LeadsTo (w w' : Workspace) : Prop :=
  ∃ I' scope', Outlined I' w' scope' ∧ ∀ name s, w.scopes.find? name = some s → w'.scopes.find? name = some s

/-- The name of a global stands for a variable, which may be assigned if it was declared so. -/
def Workspace.Holds (w : Workspace) (binder : Binder) : Prop :=
  ∃ s, w.scopes.find? binder.name = some s ∧ s.isFunction = false ∧ s.operand.mutable = binder.mutable

theorem does_modifyModule (w : Workspace) (change : IR.Module → IR.Module) : Does (build (.modifyModule change)) w fun _ w' =>
      w' = { w with builder := { w.builder with module := change w.builder.module } } :=
  does_build (a := ()) rfl rfl

/-- A global of a type is declared, with a constant for its initial value. -/
theorem does_globalAt (binder : Binder) (loc : Loc) {x : Operand} (h : Outlined I w scope) (hx : w.types.IsConstant x) {declared : TypeId}
    (hlt : w.types.Has declared) : Does (do
      let type ← immutableOf declared
      checkSized type loc
      match (← coerce x type loc).value with
      | .constant c =>
        let declared ← if binder.mutable then mutableOf type else pure type
        bind { name := binder.name, operand := .place declared (.global binder.name) binder.mutable, loc, isFunction := false }
        build (.addGlobal { name := binder.name, type := ← irOf type, init := c, mutable := binder.mutable })
      | _ => throw (.unsupported .initializer (.type (← nameOf type)) loc)) w
      fun _ w' => w'.Holds binder ∧ w.LeadsTo w' := by
  obtain ⟨hlt', -⟩ := h.types.paired.unqualified hlt
  refine does_immutableOf h.types hlt ?_
  generalize w.types.unqualified declared = type at hlt' ⊢
  refine does_checkSized hlt' fun hsized => ?_
  have hk : w.types.kind type ≠ .function := fun hf => by simp [TypeTable.isSized, TypeKind.isSized, hf] at hsized
  refine (does_coerce h.types hx hlt' hk).bind fun y w₁ hy => ?_
  obtain ⟨rfl, hy, hytype⟩ := hy
  obtain ⟨c, hc, hfits⟩ := hy.value
  rw [hytype] at hfits
  rw [hc]
  dsimp only
  -- The rest, once the type of the name is known.
  have hlast : ∀ (t : TypeTable) (declared : TypeId), w₁.types.Extends t → t.Valid → t.Has declared →
      t.kind declared ≠ .function → t.ir declared = w₁.types.ir type → Does (do
        bind { name := binder.name, operand := .place declared (.global binder.name) binder.mutable, loc, isFunction := false }
        build (.addGlobal { name := binder.name, type := ← irOf type, init := c, mutable := binder.mutable })) { w₁ with types := t }
        fun _ w' => w'.Holds binder ∧ w₁.LeadsTo w' := by
    intro t declared hext hv hdlt hdk hdir
    have h' := h.retype hext hv
    let symbol : Symbol :=
      { name := binder.name, operand := .place declared (.global binder.name) binder.mutable, loc, isFunction := false }
    refine (Outlined.does_bind (w := { w₁ with types := t }) h.scopes symbol).bind fun _ w₂ hnew => ?_
    obtain ⟨rfl, hnew⟩ := hnew
    have htlt : t.Has type := Nat.lt_of_lt_of_le hlt' hext.length_le
    refine does_irOf htlt ((does_modifyModule _ _).imp fun _ w₂ hw => ?_)
    subst hw
    let g : IR.Global := { name := binder.name, type := t.ir type, init := c, mutable := binder.mutable }
    have hcell : (I.withGlobal g).cell? binder.name = some (t.ir declared, binder.mutable) := by
      simp [IR.Interface.withGlobal, g, hdir, hext.ir hlt']
    refine ⟨⟨symbol, by simp [Scopes.find?, Scopes.meaning?, symbol], rfl, rfl⟩, _, _, h'.addGlobal (g := g) (s := symbol) rfl hnew
      ⟨hdlt, fun hf => (by cases hf), fun _ => ⟨rfl, rfl, hdk, hcell⟩⟩ ?_ rfl rfl, fun name s hs => h.find?_kept hnew hs⟩
    show c.Fits (t.ir type)
    rw [hext.ir hlt']
    exact hfits
  refine does_ite (fun _ => ?_) fun _ => hlast w₁.types type (.refl _) h.types hlt' hk rfl
  obtain ⟨hy, -⟩ := h.types.mutableOf hlt' hk
  exact does_of_ok (run_mutableOf.mpr ⟨hasTypes_single hlt', rfl, rfl⟩) (hlast _ _ hy.grown hy.valid hy.lt (hy.kind ▸ hk) hy.ir)

/-- A declaration of a global. -/
theorem does_global {binder : Binder} (hb : binder.Declared) {init : Option Node} (hinit : ∀ n, init = some n → n.IsExpression) :
    Declares (global binder init loc) fun w' => w'.Holds binder := by
  intro I w scope h
  unfold global
  refine does_checkNotReserved fun _ => ?_
  cases init with
  | none => exact does_throw rfl
  | some n =>
    dsimp only
    refine (does_constant (hinit n rfl) h.types).bind fun x w₁ ⟨t, hw, hx, hv, hconst⟩ => ?_
    subst hw
    have h' := h.retype hx hv
    have hvalue := does_globalAt binder loc h' hconst hconst.lt
    cases htype : binder.type with
    | none => exact hvalue
    | some written =>
      refine does_ite (fun _ => hvalue) fun _ => ?_
      refine does_written (w := { w with types := t }) hv (hb.type written htype).word fun t' id hx' hv' hlt _ => ?_
      exact does_globalAt binder loc (h'.retype hx' hv') (isConstant_grown hconst hv hv' hx') hlt

/-! ## Functions -/

/-- The plain type of a name is plain. -/
theorem TypeTable.Valid.plain_unqualified (h : t.Valid) {id : TypeId} (hid : t.Has id) (hk : t.kind id ≠ .function) :
    t.Plain (t.unqualified id) := by
  obtain ⟨hlt, -, hk', hm⟩ := h.paired.unqualified hid
  obtain ⟨e, he⟩ : ∃ e, t.entries[t.unqualified id]? = some e := ⟨_, List.getElem?_eq_getElem hlt⟩
  rw [TypeTable.entry_eq he] at hm
  refine ⟨e, he, hm, fun s hs => hk ?_⟩
  rw [← hk', TypeTable.kind_other he (fun target ht => by rw [hs] at ht; cases ht), hs]
  rfl

/-- A type that is written, without mutability. -/
theorem does_plainType {α : Type} {k : TypeId → Lowering α} {Q : α → Workspace → Prop} {written : TypeRef} (hword : IsWord written.name)
    (hv : w.types.Valid)
    (hk : ∀ (t : TypeTable) (id : TypeId), w.types.Extends t → t.Valid → t.Plain id → Does (k id) { w with types := t } Q) :
    Does (do let id ← resolve written; let type ← immutableOf id; k type) w Q := by
  refine does_written hv hword fun t id hx hv' hlt hid => ?_
  exact does_immutableOf (w := { w with types := t }) hv' hlt (hk t _ hx hv' (hv'.plain_unqualified hlt hid))

theorem does_parameterType (hn : n.IsParameter) (hv : w.types.Valid) :
    Does (parameterType n) w fun p w' => ∃ t, w' = { w with types := t } ∧ w.types.Extends t ∧ t.Valid ∧
      t.Plain p.2.1 ∧ t.isSized p.2.1 = true := by
  cases hn with
  | @mk loc loc' binder mode hb =>
    unfold parameterType
    refine does_of_ok rfl ?_
    dsimp only
    cases htype : binder.type with
    | none => exact does_throw rfl
    | some written =>
      refine does_plainType (hb.type written htype).word hv fun t id hx hv' hplain => ?_
      exact does_checkSized hplain.lt fun hsized => does_pure ⟨t, rfl, hx, hv', hplain, hsized⟩

theorem does_parameterTypes {ns : List Node} (hns : ∀ n ∈ ns, n.IsParameter) (hv : w.types.Valid) :
    Does (ns.mapM parameterType) w fun ps w' => ∃ t, w' = { w with types := t } ∧ w.types.Extends t ∧ t.Valid ∧
      ∀ p ∈ ps, t.Plain p.2.1 ∧ t.isSized p.2.1 = true := by
  induction ns generalizing w with
  | nil => exact does_pure ⟨w.types, rfl, .refl _, hv, nofun⟩
  | cons n ns ih =>
    rw [List.mapM_cons]
    refine (does_parameterType (hns n List.mem_cons_self) hv).bind fun p w' ⟨t, hw, hx, hv', hplain, hsized⟩ => ?_
    subst hw
    refine (ih (w := { w with types := t }) (fun m hm => hns m (List.mem_cons_of_mem _ hm)) hv').bind fun ps w' ⟨t', hw, hx', hv'', hps⟩ => ?_
    refine does_pure ⟨t', hw, hx.trans hx', hv'', fun q hq => ?_⟩
    rcases List.mem_cons.mp hq with rfl | hq
    · refine ⟨hplain.extends hx', ?_⟩
      rw [TypeTable.isSized, hx'.kind hv'.ordered hv''.ordered hplain.lt]
      exact hsized
    · exact hps q hq

/-- The records for a debugger need the types of the signature, which are there. -/
theorem does_debugTypes {type : TypeId} (hv : w.types.Valid) (hlt : w.types.Has type) : Does (debugTypes type) w fun _ w' => w' = w := by
  unfold debugTypes
  refine does_typesWith (hasTypes_single hlt) ?_
  cases hs : (w.types.entry type).signature? with
  | none => exact does_pure rfl
  | some sig => exact does_typesWith (fun id hid => Nat.lt_trans (hv.signature hlt hs id hid).1 hlt) (does_pure rfl)

theorem does_newFunction {irParams : List (String × Ty)} {type : TypeId} {inlined : Bool} (h : Outlined I w scope) (sig : Signature)
    (hnone : scope.find? (·.name == name) = none) (hlt : w.types.Has type)
    (hsig : (w.types.entry type).signature? = some sig) (hlength : irParams.length = sig.params.length) :
    Does (newFunction name irParams (w.types.ir sig.ret) type inlined loc) w fun _ w' =>
      (∃ s, w'.scopes.find? name = some s ∧ s.isFunction = true) ∧ w.LeadsTo w' := by
  have hnew : ∀ x ∈ scope, x.name ≠ name := fun x hx => by simpa using List.find?_eq_none.mp hnone x hx
  have hindex : w.builder.module.functionIndex? name = none := by
    rw [IR.Module.functionIndex?, List.findIdx?_eq_none_iff]
    intro f hf
    obtain ⟨x, hx, hxf⟩ := h.exists_name hf
    simpa [← hxf] using hnew x hx
  unfold newFunction
  refine does_checkNotReserved fun _ => ?_
  let f : IR.Function := { name, params := irParams, ret := w.types.ir sig.ret }
  let b : IR.Builder := { w.builder with module := { w.builder.module with functions := w.builder.module.functions ++ [f] } }
  have hdeclare : IR.Build.declare name irParams (w.types.ir sig.ret) w.builder = .ok w.builder.module.functions.length b := by
    simp only [IR.Build.declare, Bind.bind, EStateM.bind, get_apply, hindex]
    rfl
  refine does_of_ok (run_build.mpr ⟨b, hdeclare, rfl⟩) ?_
  refine does_typesWith (hasTypes_single hlt) ?_
  let symbol : Symbol := { name, operand := { type, value := .function name }, loc, isFunction := true }
  have hlast : ∀ debug : Option IR.Subprogram, Does (do
      build (.modifyModule (·.modifyFunction w.builder.module.functions.length fun f =>
        { f with mangled := w.types.symbolOf name type, alwaysInline := inlined, debug }))
      bind symbol
      note (.declared name (w.types.nameOf type))) { w with builder := b }
      fun _ w₁ => (∃ s, w₁.scopes.find? name = some s ∧ s.isFunction = true) ∧ w.LeadsTo w₁ := by
    intro debug
    let f' : IR.Function := { f with mangled := w.types.symbolOf name type, alwaysInline := inlined, debug }
    let b' : IR.Builder := { b with module := b.module.modifyFunction w.builder.module.functions.length fun f =>
      { f with mangled := w.types.symbolOf name type, alwaysInline := inlined, debug } }
    refine (does_modifyModule _ _).bind fun _ w₁ hw => ?_
    subst hw
    refine (Outlined.does_bind (w := { w with builder := b' }) h.scopes symbol).bind fun _ w₁ h₁ => ?_
    obtain ⟨rfl, -⟩ := h₁
    refine does_modify ?_
    have hsignature : (I.withFunction name (sig.grades w.types, w.types.ir sig.ret)).signature? name =
        some (sig.grades w.types, w.types.ir sig.ret) := if_pos rfl
    have hout := (h.addFunction (f := f') (s := symbol) (b := b') (sig.grades w.types) rfl hnew
      ⟨hlt, fun _ => ⟨rfl, rfl, sig, hsig, hsignature⟩, fun hf => by cases hf⟩ (by simp [Signature.grades, f', f, hlength]) ⟨rfl, rfl⟩ rfl
      (IR.Module.modify_length_append _ f _) rfl).rebuild (w.journal ++ [.declared name (w.types.nameOf type)]) rfl rfl
    refine ⟨⟨symbol, ?_, rfl⟩, _, _, hout, fun name' s hs => h.find?_kept hnew hs⟩
    show Scopes.find? [symbol :: scope] name = some symbol
    simp [Scopes.find?, Scopes.meaning?, symbol]
  refine does_ite (fun _ => does_of_ok rfl ?_) fun _ => hlast none
  refine (does_debugTypes (w := { w with builder := b }) h.types hlt).bind fun _ w₂ hw => ?_
  subst hw
  exact hlast _

/-- A declaration of a function. -/
theorem does_prototype {returns : TypeRef} {ns : List Node} {inlined : Bool} (hreturns : IsWord returns.name)
    (hns : ∀ n ∈ ns, n.IsParameter) : Declares (prototype ⟨loc, .prototype name returns ns inlined⟩) fun w' =>
      ∃ s, w'.scopes.find? name = some s ∧ s.isFunction = true := by
  intro I w scope h
  rw [prototype]
  refine does_plainType hreturns h.types fun t ret hx hv hplain => ?_
  refine (does_parameterTypes (w := { w with types := t }) hns hv).bind fun ps w₁ ⟨t', hw, hx', hv', hps⟩ => ?_
  subst hw
  have hplain' : t'.Plain ret := hplain.extends hx'
  have htypes : ∀ x ∈ ret :: ps.map (·.2.1), t'.Plain x := by
    intro x hx
    rcases List.mem_cons.mp hx with rfl | hx
    · exact hplain'
    · obtain ⟨p, hp, rfl⟩ := List.mem_map.mp hx
      exact (hps p hp).1
  refine does_typesWith (fun x hx => (htypes x hx).lt) ?_
  let sig : Signature := ⟨ret, ps.map (·.2)⟩
  have hsigtypes : ∀ x ∈ sig.types, t'.Plain x := by
    intro x hx
    refine htypes x ?_
    simpa [Signature.types, sig, List.map_map] using hx
  obtain ⟨hx'', hv'', e, he, hshape⟩ := hv'.function hsigtypes fun x hx => by
    obtain ⟨p, hp, rfl⟩ := List.mem_map.mp hx
    exact (hps p hp).2
  obtain ⟨type, t₂, hr⟩ : ∃ type t₂, t'.function sig = (type, t₂) := ⟨_, _, rfl⟩
  rw [hr] at hx'' hv'' he
  have h' := h.retype ((hx.trans hx').trans hx'') hv''
  have hlt : t₂.Has type := (List.getElem?_eq_some_iff.mp he).1
  have hentry : (t₂.entry type).signature? = some sig := by
    rw [TypeTable.entry_eq he]
    exact TypeTable.signature?_eq_some.mpr hshape
  refine does_of_ok (run_onTypes.mpr ⟨congrArg Prod.fst hr, congrArg (fun r => { w with types := r.2 }) hr⟩) ?_
  refine does_of_ok (run_lookup?.mpr ⟨h'.find?_eq name, rfl⟩) ?_
  cases hfind : scope.find? (·.name == name) with
  | none =>
    have hret_lt : t₂.Has ret := Nat.lt_of_lt_of_le hplain'.lt hx''.length_le
    exact does_irOf hret_lt (does_newFunction h' sig hfind hlt hentry (by simp [sig]))
  | some symbol =>
    dsimp only
    have hsymbol := List.mem_of_find?_eq_some hfind
    have hname := h'.names symbol hsymbol
    have hfound : w.scopes.find? name = some symbol := (h.find?_eq name).trans hfind
    refine does_ite (fun _ => .stop (does_throw rfl)) fun hfunction => ?_
    have hfunction : symbol.isFunction = true := by simpa using hfunction
    refine does_ite (fun _ => ?_) fun _ => ?_
    · exact does_mismatchAt hname.lt hlt
    · refine does_ite (fun _ => (does_modifyModule _ _).imp fun _ w₁ hw => ?_) fun _ =>
        does_pure ⟨⟨symbol, hfound, hfunction⟩, I, scope, h', fun _ _ hs => hs⟩
      subst hw
      refine ⟨⟨symbol, hfound, hfunction⟩, I, scope, ?_, fun _ _ hs => hs⟩
      dsimp only
      split
      · exact h'.mark _ fun f => ⟨rfl, rfl, rfl⟩
      · exact h'.rebuild w.journal rfl rfl

/-! ## Units -/

/-- The name of the function that an item declares. -/
def Node.functionName? : Node → Option String
  | ⟨_, .function ⟨_, .prototype name _ _ _⟩ _ _⟩ => some name
  | _ => none

/-- The global that an item declares. -/
def Node.globalBinder? : Node → Option Binder
  | ⟨_, .defineGlobal binder _⟩ => some binder
  | _ => none

/-- What an item declares is known by its name. -/
structure Workspace.Knows (w : Workspace) (n : Node) : Prop where
  function : ∀ name, n.functionName? = some name → ∃ s, w.scopes.find? name = some s ∧ s.isFunction = true
  global : ∀ binder, n.globalBinder? = some binder → w.Holds binder

theorem does_declaration (hn : n.IsItem) : Declares (declaration n) fun w' => w'.Knows n := by
  intro I w scope h
  cases hn with
  | @nameUnit _ name =>
    exact (does_modifyModule w fun m => { m with name }).imp fun _ w' hw => by
      subst hw
      exact ⟨⟨nofun, nofun⟩, I, scope, h.rebuild w.journal rfl rfl, fun _ _ hs => hs⟩
  | @importUnit _ target =>
    exact does_of_ok rfl ((does_modifyModule _ fun m => { m with imports := m.imports ++ [target] }).imp fun _ w' hw => by
      subst hw
      exact ⟨⟨nofun, nofun⟩, I, scope, h.rebuild _ rfl rfl, fun _ _ hs => hs⟩)
  | «alias» hname htarget =>
    refine does_written h.types htarget.word fun t id hx hv hlt hk => does_typesWith (hasTypes_single hlt) ?_
    refine Does.discard (Q := fun _ w' => ∃ t', w' = { w with types := t' } ∧ t.Extends t' ∧ t'.Valid)
      (does_tryTypes (fun f hf => ?_) fun _ t' ht' => ⟨t', rfl, hv.addAlias hname.word hlt hk ht'⟩) fun _ w' ⟨t', hw, hx', hv'⟩ => ?_
    · unfold TypeTable.addAlias at hf
      dsimp only at hf
      split at hf
      · cases hf
        rfl
      · cases hf
    · subst hw
      exact ⟨⟨nofun, nofun⟩, I, scope, h.retype (hx.trans hx') hv', fun _ _ hs => hs⟩
  | defineGlobal hb hinit =>
    refine (does_global hb (fun e he => (hinit e he).expression) I w scope h).imp fun _ w' ⟨hholds, hrest⟩ => ⟨⟨nofun, fun binder hb => ?_⟩, hrest⟩
    cases hb
    exact hholds
  | empty => exact does_pure ⟨⟨nofun, nofun⟩, I, scope, h, fun _ _ hs => hs⟩
  | function _ hreturns hns _ _ _ =>
    refine (does_prototype hreturns.word hns I w scope h).imp fun _ w' ⟨hknown, hrest⟩ => ⟨⟨fun name hname => ?_, nofun⟩, hrest⟩
    cases hname
    exact hknown

theorem does_declarations {items : List Node} (hitems : ∀ n ∈ items, n.IsItem) (h : Outlined I w scope) :
    Does (items.forM declaration) w fun _ w' => (∀ n ∈ items, w'.Knows n) ∧ w.LeadsTo w' := by
  induction items generalizing I w scope with
  | nil => exact does_pure ⟨nofun, I, scope, h, fun _ _ hs => hs⟩
  | cons n items ih =>
    refine Does.bind (does_declaration (hitems n List.mem_cons_self) I w scope h) fun _ w₁ ⟨hknown, I₁, scope₁, h₁, hkeep₁⟩ => ?_
    refine (ih (fun m hm => hitems m (List.mem_cons_of_mem _ hm)) h₁).imp fun _ w₂ ⟨hknown₂, I₂, scope₂, h₂, hkeep₂⟩ => ?_
    refine ⟨fun m hm => ?_, I₂, scope₂, h₂, fun name s hs => hkeep₂ name s (hkeep₁ name s hs)⟩
    rcases List.mem_cons.mp hm with rfl | hm
    · refine ⟨fun name hname => ?_, fun binder hb => ?_⟩
      · obtain ⟨s, hs, hfunction⟩ := hknown.function name hname
        exact ⟨s, hkeep₂ name s hs, hfunction⟩
      · obtain ⟨s, hs, hglobal⟩ := hknown.global binder hb
        exact ⟨s, hkeep₂ _ s hs, hglobal⟩
    · exact hknown₂ m hm

theorem does_definitions {items : List Node} (hitems : ∀ n ∈ items, n.IsItem) (hknown : ∀ n ∈ items, w.Knows n) (h : Staged I w) :
    Does (items.forM definition) w fun _ w' => Staged I w' ∧ w'.scopes = w.scopes := by
  induction items generalizing w with
  | nil => exact does_pure ⟨h, rfl⟩
  | cons n items ih =>
    refine Does.bind (Q := fun _ w' => Staged I w' ∧ w'.scopes = w.scopes) ?_ fun _ w₁ ⟨h₁, hscopes⟩ =>
      (ih (fun m hm => hitems m (List.mem_cons_of_mem _ hm)) (fun m hm => ?_) h₁).imp fun _ w₂ ⟨h₂, hscopes'⟩ =>
        ⟨h₂, hscopes'.trans hscopes⟩
    · cases hitems n List.mem_cons_self with
      | @function _ loc' name returns params inlined _ body _ _ hns hb hblock =>
        cases body with
        | none => exact does_pure ⟨h, rfl⟩
        | some b =>
          show Does (body ⟨loc', .prototype name returns params inlined⟩ b) w _
          exact does_body hns (hb b rfl) (Node.definesName_of_isBlock (hblock b rfl)) h ((hknown _ List.mem_cons_self).function _ rfl)
      | _ => exact does_pure ⟨h, rfl⟩
    · obtain ⟨hfunction, hglobal⟩ := hknown m (List.mem_cons_of_mem _ hm)
      exact ⟨hscopes ▸ hfunction, fun binder hb => by rw [Workspace.Holds, hscopes]; exact hglobal binder hb⟩

/-- The interface of an empty unit. -/
def IR.Interface.none : Interface where
  signature? _ := .none
  cell? _ := .none

theorem outlined_workspace (file : SourceFile) (debugInfo : Bool) : Outlined .none (file.workspace debugInfo) [] where
  types := TypeTable.valid_initial debugInfo
  scopes := rfl
  names := nofun
  module := ⟨List.nodup_nil, List.nodup_nil, nofun, nofun, nofun,
    nofun, nofun⟩
  declared := nofun
  functions := nofun
  globals := nofun

/-- What lowering a unit comes to: a well-formed module, a name for every function of the interface, and a cell for every global that
was declared. -/
structure Lowered (n : Node) (I : Interface) (w : Workspace) : Prop where
  staged : Staged I w
  named : ∀ name signature, I.signature? name = some signature → ∃ s, w.scopes.find? name = some s ∧ s.isFunction = true
  globals : ∀ item ∈ n.items, ∀ binder, item.globalBinder? = some binder →
    ∃ type, I.cell? binder.name = some (type, binder.mutable)

/-- A unit of the grammar is lowered, or the source is at fault. -/
theorem lowered_unit (hn : ∀ i ∈ n.items, i.IsItem) (file : SourceFile) (debugInfo : Bool) :
    Does (unit n) (file.workspace debugInfo) fun _ w => ∃ I, Lowered n I w := by
  unfold unit
  refine (does_declarations hn (outlined_workspace file debugInfo)).bind fun _ w₁ ⟨hknown, I, scope, h, _⟩ => ?_
  obtain ⟨hsound, hdoes⟩ :=
    does_definitions hn hknown ⟨h.types, ⟨scope, h.scopes, h.names⟩, h.module, fun f hf _ => h.declared f hf, fun f hf i hi => by
      simp [IR.Function.instructions, (h.declared f hf).1] at hi⟩
  refine ⟨hsound, fun u w₂ hrun => ⟨I, ?_⟩⟩
  obtain ⟨hstaged, hscopes⟩ := hdoes u w₂ hrun
  refine ⟨hstaged, fun name signature hs => ?_, fun item hitem binder hb => ?_⟩
  · obtain ⟨f, hf, rfl⟩ := h.module.callable name signature hs
    rw [hscopes, h.find?_eq]
    exact h.functions f hf
  · obtain ⟨s, hs, hfun, hmut⟩ := (hknown item hitem).global binder hb
    rw [h.find?_eq] at hs
    obtain ⟨-, -, -, hcell⟩ := (h.names s (List.mem_of_find?_eq_some hs)).global hfun
    have hname : s.name = binder.name := by simpa using List.find?_some hs
    exact ⟨_, by rw [← hname, hcell, hmut]⟩

/-- A unit of the grammar is lowered to a well-formed module, or the source is at fault. -/
theorem does_unit (hn : ∀ i ∈ n.items, i.IsItem) (file : SourceFile) (debugInfo : Bool) :
    Does (unit n) (file.workspace debugInfo) fun _ w => ∃ I, w.builder.module.WellFormed I :=
  (lowered_unit hn file debugInfo).imp fun _ _ ⟨I, h⟩ => ⟨I, h.staged.module⟩

end Ember
