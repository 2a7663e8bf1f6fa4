import Ember.Proofs.Lower.Shape
import Ember.Proofs.Tree.Grammar
import Mathlib.Data.List.Induction
import Mathlib.Data.Option.Basic

/-!
# Scoping is lexical

A row of calls opens and closes scopes and gives names their meaning. What a lookup finds behind it is said of the row alone: the symbol
that the first call for its name gave in the innermost scope that is still open and has the name (`Visible`). Every statement of a source
leaves the table as it was, but for the definition of a variable, which gives one name a meaning; that is an induction over the tree, where
definitions stand only in blocks, at the heads of loops and in parameters (`Node.Confined`).
-/

namespace Ember

namespace Scopes

/-- Calls of a table of names. -/
inductive Call where
  | enter
  | leave
  | bind (symbol : Symbol)

/-- The table behind a call. A name that cannot be given a meaning changes nothing. -/
def apply (t : Scopes) : Call → Scopes
  | .enter => t.enter
  | .leave => t.leave
  | .bind symbol => (t.bind symbol).toOption.getD t

/-- The table behind a row of calls. -/
def run (t : Scopes) (calls : List Call) : Scopes :=
  calls.foldl apply t

/-- How many scopes are open behind a call, of those that were opened. -/
def Call.depth? (depth : Nat) : Call → Option Nat
  | .enter => some (depth + 1)
  | .leave => if depth = 0 then none else some (depth - 1)
  | .bind _ => some depth

/-- How many scopes calls open and leave open; nothing if they close one that they did not open. -/
def rise? (calls : List Call) : Option Nat :=
  calls.foldlM Call.depth? 0

/-- No call gives the name a meaning in the scope that is the innermost one at the end. -/
def FreshIn (calls : List Call) (name : String) : Prop :=
  ∀ before s after, calls = before ++ .bind s :: after → s.name = name → rise? after ≠ some 0

/-- A call gives the symbol its meaning, as the first call for its name in its scope. The scope is open, with `level` open scopes inside. -/
def Given (calls : List Call) (level : Nat) (symbol : Symbol) : Prop :=
  ∃ before after, calls = before ++ .bind symbol :: after ∧ rise? after = some level ∧ FreshIn before symbol.name

/-- The symbol is given in an open scope, and its name is not given in an open scope further in. -/
def Visible (calls : List Call) (symbol : Symbol) : Prop :=
  ∃ level, Given calls level symbol ∧ ∀ inner < level, ∀ s, Given calls inner s → s.name ≠ symbol.name

/-- The meaning of a name in the scope with so many scopes inside. -/
def meaningAt? (t : Scopes) (level : Nat) (name : String) : Option Symbol :=
  t[level]?.bind (meaning? name)

variable {calls : List Call} {c : Call} {i d : Nat} {s symbol : Symbol} {name : String} {t outer : Scopes} {scope : Scope}

theorem rise?_concat : rise? (calls ++ [c]) = (rise? calls).bind (Call.depth? · c) := by
  simp [rise?, List.foldlM_append]

/-- Where there are calls for a name, one is the first. -/
theorem exists_given (before after : List Call) (s : Symbol) (h : calls = before ++ .bind s :: after) (hrise : rise? after = some i) :
    ∃ s', s'.name = s.name ∧ Given calls i s' := by
  by_cases hfresh : FreshIn before s.name
  · exact ⟨s, rfl, before, after, h, hrise, hfresh⟩
  · simp only [FreshIn, not_forall, ne_eq, not_not] at hfresh
    obtain ⟨first, s', between, rfl, hname, hbetween⟩ := hfresh
    have hrise' : rise? (between ++ .bind s :: after) = some i := by
      rw [rise?, List.foldlM_append, ← rise?, hbetween]
      exact hrise
    obtain ⟨s'', hs'', hgiven⟩ := exists_given first _ s' (by simp [h]) hrise'
    exact ⟨s'', hs''.trans hname, hgiven⟩
termination_by before.length
decreasing_by simp [*]

theorem freshIn_iff : FreshIn calls name ↔ ∀ s, Given calls 0 s → s.name ≠ name := by
  constructor
  · rintro h s ⟨before, after, hcalls, hrise, -⟩ hname
    exact h before s after hcalls hname hrise
  · intro h before s after hcalls hname hrise
    obtain ⟨s', hs', hgiven⟩ := exists_given before after s hcalls hrise
    exact h s' hgiven (hs'.trans hname)

/-- One more call moves what is given in or out, or gives a name that is new in its scope. -/
theorem given_concat : Given (calls ++ [c]) i symbol ↔
    (∃ j, Given calls j symbol ∧ Call.depth? j c = some i) ∨ (i = 0 ∧ c = .bind symbol ∧ FreshIn calls symbol.name) := by
  constructor
  · rintro ⟨before, after, h, hrise, hfresh⟩
    rcases List.eq_nil_or_concat' after with rfl | ⟨rest, c', rfl⟩
    · obtain ⟨rfl, hc⟩ := List.append_inj' h rfl
      exact .inr ⟨(Option.some.inj hrise).symm, List.singleton_inj.mp hc, hfresh⟩
    · rw [← List.cons_append, ← List.append_assoc] at h
      obtain ⟨rfl, hc⟩ := List.append_inj' h rfl
      obtain rfl := List.singleton_inj.mp hc
      obtain ⟨j, hj, hdepth⟩ := Option.bind_eq_some_iff.mp (rise?_concat ▸ hrise)
      exact .inl ⟨j, ⟨before, rest, rfl, hj, hfresh⟩, hdepth⟩
  · rintro (⟨j, ⟨before, after, rfl, hrise, hfresh⟩, hdepth⟩ | ⟨rfl, rfl, hfresh⟩)
    · exact ⟨before, after ++ [c], by simp, by rw [rise?_concat, hrise]; exact hdepth, hfresh⟩
    · exact ⟨calls, [], rfl, rfl, hfresh⟩

theorem bind_cases (symbol : Symbol) (scope : Scope) (outer : Scopes) :
    ((meaning? symbol.name scope).isSome = true ∧ apply (scope :: outer) (.bind symbol) = scope :: outer) ∨
      (meaning? symbol.name scope = none ∧ apply (scope :: outer) (.bind symbol) = (symbol :: scope) :: outer) := by
  unfold apply bind
  cases hm : meaning? symbol.name scope <;> simp [hm, Except.toOption]

/-- Calls that close no scope that they did not open change only the innermost one, and put scopes inside it. -/
theorem run_cons (h : rise? calls = some d) (scope : Scope) (t : Scopes) :
    ∃ inner scope', inner.length = d ∧ run (scope :: t) calls = inner ++ scope' :: t := by
  induction calls using List.reverseRecOn generalizing d with
  | nil => exact ⟨[], scope, Option.some.inj h, rfl⟩
  | append_singleton calls c ih =>
    obtain ⟨k, hk, hd⟩ := Option.bind_eq_some_iff.mp (rise?_concat ▸ h)
    obtain ⟨inner, scope', rfl, hrun⟩ := ih hk
    rw [run, List.foldl_concat, ← run, hrun]
    cases c with
    | enter => exact ⟨[] :: inner, scope', Option.some.inj hd, rfl⟩
    | leave =>
      cases inner with
      | nil => cases hd
      | cons first inner => exact ⟨inner, scope', Option.some.inj hd, rfl⟩
    | bind symbol =>
      obtain rfl := Option.some.inj hd
      cases inner with
      | nil =>
        rcases bind_cases symbol scope' t with ⟨-, h⟩ | ⟨-, h⟩
        · exact ⟨[], scope', rfl, h⟩
        · exact ⟨[], symbol :: scope', rfl, h⟩
      | cons first inner =>
        rcases bind_cases symbol first (inner ++ scope' :: t) with ⟨-, h⟩ | ⟨-, h⟩
        · exact ⟨first :: inner, scope', rfl, h⟩
        · exact ⟨(symbol :: first) :: inner, scope', rfl, h⟩

/-- What is done in a scope of its own is gone behind it. -/
theorem run_scope (h : rise? calls = some 0) (t : Scopes) : t.run (.enter :: calls ++ [.leave]) = t := by
  obtain ⟨inner, scope, hlength, hrun⟩ := run_cons h [] t
  obtain rfl := List.eq_nil_of_length_eq_zero hlength
  rw [run, List.foldl_concat]
  exact congrArg leave hrun

/-- The table has every name that is given, at its level, and no other. -/
def Records (calls : List Call) (t : Scopes) : Prop :=
  ∀ i name s, t.meaningAt? i name = some s ↔ s.name = name ∧ Given calls i s

theorem Records.freshIn_iff (h : Records calls (scope :: outer)) : FreshIn calls name ↔ meaning? name scope = none := by
  rw [Scopes.freshIn_iff, Option.eq_none_iff_forall_ne_some]
  have hhere : ∀ s, meaning? name scope = some s ↔ s.name = name ∧ Given calls 0 s := fun s => h 0 name s
  exact forall_congr' fun s => ⟨fun hs hm => hs ((hhere s).mp hm).2 ((hhere s).mp hm).1, fun hs hg hn => hs ((hhere s).mpr ⟨hn, hg⟩)⟩

/-- A call for a name that is new in the innermost scope gives it there, and any other call for a name gives nothing. -/
theorem Records.bind (h : Records calls (scope :: outer)) (symbol : Symbol) :
    Records (calls ++ [.bind symbol]) (apply (scope :: outer) (.bind symbol)) := by
  have hgiven : ∀ i s, Given (calls ++ [.bind symbol]) i s ↔
      Given calls i s ∨ (i = 0 ∧ symbol = s ∧ meaning? symbol.name scope = none) := by
    intro i s
    rw [given_concat, ← h.freshIn_iff]
    grind [Call.depth?]
  intro i name s
  rw [hgiven]
  rcases bind_cases symbol scope outer with ⟨hm, happly⟩ | ⟨hm, happly⟩
  · obtain ⟨old, hold⟩ := Option.isSome_iff_exists.mp hm
    rw [happly, h i name s, hold]
    simp
  · rw [happly]
    cases i with
    | zero =>
      have hcons : meaningAt? ((symbol :: scope) :: outer) 0 name = if symbol.name = name then some symbol else meaning? name scope := by
        simp only [meaningAt?, List.getElem?_cons_zero, Option.bind_some, meaning?, List.find?_cons]
        grind
      have h0 := h 0 name s
      rw [hcons]
      grind [meaningAt?]
    | succ i => simpa [meaningAt?] using h (i + 1) name s

theorem records_run (h : rise? calls = some d) : Records calls (run initial calls) := by
  induction calls using List.reverseRecOn generalizing d with
  | nil =>
    intro i name s
    cases i <;> simp [run, initial, meaningAt?, meaning?, Given]
  | append_singleton calls c ih =>
    obtain ⟨k, hk, hd⟩ := Option.bind_eq_some_iff.mp (rise?_concat ▸ h)
    rw [run, List.foldl_concat, ← run]
    cases c with
    | enter =>
      intro i name s
      rw [given_concat]
      cases i with
      | zero => simp [Call.depth?, meaningAt?, apply, enter, meaning?]
      | succ i => simpa [Call.depth?, meaningAt?, apply, enter] using ih hk i name s
    | leave =>
      intro i name s
      have hleave : meaningAt? (apply (run initial calls) .leave) i name = meaningAt? (run initial calls) (i + 1) name := by
        simp [meaningAt?, apply, leave]
      rw [hleave, given_concat, ih hk]
      grind [Call.depth?]
    | bind symbol =>
      obtain ⟨inner, scope, -, hrun⟩ := run_cons hk [] []
      have hrecords : Records calls (inner ++ [scope]) := hrun ▸ ih hk
      rw [show run initial calls = inner ++ [scope] from hrun]
      cases inner with
      | nil | cons first inner => exact hrecords.bind symbol

/-- A name is given a meaning exactly if it is new in the innermost scope. -/
theorem bind_run (h : rise? calls = some d) : (∃ t, (run initial calls).bind symbol = .ok t) ↔ FreshIn calls symbol.name := by
  obtain ⟨inner, scope, -, hrun⟩ := run_cons h [] []
  obtain ⟨first, rest, hfirst⟩ := List.exists_cons_of_ne_nil (l := inner ++ [scope]) (by simp)
  have hrun : run initial calls = first :: rest := hrun.trans hfirst
  have hrecords := records_run h
  rw [hrun] at hrecords ⊢
  rw [hrecords.freshIn_iff, bind]
  cases meaning? symbol.name first <;> simp

/-- A lookup takes the first scope that has the name, from the innermost one outward. -/
theorem find?_eq_some_iff (t : Scopes) : t.find? name = some s ↔
    ∃ level, t.meaningAt? level name = some s ∧ ∀ inner < level, t.meaningAt? inner name = none := by
  induction t with
  | nil => simp [find?, meaningAt?]
  | cons scope outer ih =>
    rw [find?, List.findSome?_cons]
    cases hm : meaning? name scope with
    | some s' =>
      constructor
      · rintro ⟨⟩
        exact ⟨0, hm, fun _ hlt => absurd hlt (Nat.not_lt_zero _)⟩
      · rintro ⟨level | level, hlevel, hnone⟩
        · exact hm.symm.trans hlevel
        · exact absurd (hm.symm.trans (hnone 0 level.succ_pos)) (by simp)
    | none =>
      rw [← find?, ih]
      constructor
      · rintro ⟨level, hlevel, hnone⟩
        exact ⟨level + 1, hlevel, fun inner hlt => by cases inner with
          | zero => exact hm
          | succ inner => exact hnone inner (Nat.lt_of_succ_lt_succ hlt)⟩
      · rintro ⟨level | level, hlevel, hnone⟩
        · exact absurd (hm.symm.trans hlevel) (by simp)
        · exact ⟨level, hlevel, fun inner hlt => hnone (inner + 1) (Nat.succ_lt_succ hlt)⟩

/-- A lookup finds the symbol that is visible, whatever calls were made. -/
theorem find?_run (h : rise? calls = some d) : (run initial calls).find? name = some s ↔ s.name = name ∧ Visible calls s := by
  have hrecords : ∀ i name s, _ := records_run h
  simp only [find?_eq_some_iff, hrecords, Option.eq_none_iff_forall_ne_some, ne_eq]
  constructor
  · rintro ⟨level, ⟨rfl, hgiven⟩, hnone⟩
    exact ⟨rfl, level, hgiven, fun inner hlt s' hs' hname => hnone inner hlt s' ⟨hname, hs'⟩⟩
  · rintro ⟨rfl, level, hgiven, hnone⟩
    exact ⟨level, ⟨rfl, hgiven⟩, fun inner hlt s' hs' => hnone inner hlt s' hs'.2 hs'.1⟩

end Scopes

/-! ## Where definitions stand -/

namespace Node

/-- Definitions stand in blocks, at the heads of loops and in parameters, and nowhere else. -/
inductive Confined : Node → Prop where
  | mk {loc : Loc} {form : Form Node} :
    (∀ c ∈ form.children, Confined c) → (∀ c ∈ form.confined, c.definesName = false) → Confined ⟨loc, form⟩

/-- One tree is a part of the other. -/
inductive Within (n : Node) : Node → Prop where
  | self : Within n n
  | child {loc : Loc} {form : Form Node} {c : Node} : c ∈ form.children → Within n c → Within n ⟨loc, form⟩

variable {n i : Node} {loc : Loc} {form : Form Node}

theorem Confined.within (hi : i.Confined) (h : n.Within i) : n.Confined := by
  induction h with
  | self => exact hi
  | child hc _ ih =>
    obtain ⟨hchildren, -⟩ := hi
    exact ih (hchildren _ hc)

theorem confined_of_children (h : ∀ c ∈ form.children, c.Confined ∧ c.definesName = false) : Confined ⟨loc, form⟩ :=
  .mk (fun c hc => (h c hc).1) fun c hc => (h c (Form.mem_children_of_confined hc)).2

theorem IsExpression.confined (h : n.IsExpression) : n.Confined ∧ n.definesName = false := by
  induction h with
  | @literal loc form h =>
    cases form <;> first | exact absurd h Bool.false_ne_true | exact ⟨confined_of_children (by simp [Form.children]), rfl⟩
  | slice _ _ _ _ _ _ ih ihfirst ihlast =>
    refine ⟨confined_of_children (List.forall_mem_cons.mpr ⟨ih, List.forall_mem_append.mpr ⟨?_, ?_⟩⟩), rfl⟩
    · exact fun n hn => ihfirst n (Option.mem_toList.mp hn)
    · exact fun n hn => ihlast n (Option.mem_toList.mp hn)
  | _ =>
    refine ⟨confined_of_children ?_, rfl⟩
    simp_all [Form.children]

theorem confined_of_values {o : Option Node} (h : ∀ n, o = some n → n.IsValue) : ∀ n ∈ o.toList, n.Confined ∧ n.definesName = false :=
  fun n hn => (h n (Option.mem_toList.mp hn)).expression.confined

theorem IsSimple.confined (h : n.IsSimple) : n.Confined := by
  cases h with
  | value h => exact h.expression.confined.1
  | define _ h => exact confined_of_children (confined_of_values h)

theorem IsStatement.confined (h : n.IsStatement) : n.Confined := by
  induction h with
  | define _ h | ret h => exact confined_of_children (confined_of_values h)
  | expression h => exact confined_of_children (List.forall_mem_singleton.mpr h.expression.confined)
  | empty => exact confined_of_children (by simp [Form.children])
  | block _ ih => exact .mk ih (by simp [Form.confined])
  | branch hcond _ hyes _ hno ihyes ihno =>
    refine confined_of_children (List.forall_mem_cons.mpr ⟨hcond.expression.confined, List.forall_mem_cons.mpr ⟨?_, fun n hn => ?_⟩⟩)
    · exact ⟨ihyes, definesName_of_isBlock hyes⟩
    · have hn := Option.mem_toList.mp hn
      exact ⟨ihno n hn, (hno n hn).elim definesName_of_isBlock definesName_of_isBranch⟩
  | whileLoop hcond _ hbody ih =>
    refine confined_of_children (List.forall_mem_cons.mpr ⟨hcond.expression.confined, List.forall_mem_singleton.mpr ?_⟩)
    exact ⟨ih, definesName_of_isBlock hbody⟩
  | forLoop hinit hcond hstep _ hbody ih =>
    have hhead : ∀ n, _ := fun n hn => (hinit n hn).confined
    refine .mk ?_ ?_ <;> simp only [Form.children, Form.confined, List.forall_mem_append, List.forall_mem_singleton, Option.mem_toList]
    · exact ⟨⟨⟨hhead, fun n hn => (hcond n hn).expression.confined.1⟩, fun n hn => (hstep n hn).expression.confined.1⟩, ih⟩
    · exact ⟨⟨fun n hn => (hcond n hn).expression.confined.2, fun n hn => (hstep n hn).expression.confined.2⟩, definesName_of_isBlock hbody⟩
  | forEach _ hiteratee _ hbody ih =>
    have hiteratee := hiteratee.expression.confined
    refine .mk (List.forall_mem_cons.mpr ⟨?_, ?_⟩) ?_
    · exact confined_of_children (by simp [Form.children])
    · exact List.forall_mem_cons.mpr ⟨hiteratee.1, List.forall_mem_singleton.mpr ih⟩
    · exact List.forall_mem_cons.mpr ⟨hiteratee.2, List.forall_mem_singleton.mpr (definesName_of_isBlock hbody)⟩

theorem IsItem.confined (h : i.IsItem) : i.Confined := by
  cases h with
  | defineGlobal _ h => exact confined_of_children (confined_of_values h)
  | function _ _ hparams hbody hblock =>
    refine confined_of_children (List.forall_mem_cons.mpr ⟨⟨confined_of_children fun p hp => ?_, rfl⟩, fun b hb => ?_⟩)
    · obtain ⟨-, -⟩ := hparams p hp
      refine ⟨.mk (List.forall_mem_singleton.mpr (confined_of_children ?_)) ?_, rfl⟩
      · simp [Form.children]
      · simp [Form.confined, Form.checked]
    · have hb := Option.mem_toList.mp hb
      exact ⟨(hbody b hb).confined, definesName_of_isBlock (hblock b hb)⟩
  | _ => exact confined_of_children (by simp [Form.children])

end Node

/-! ## Lowering keeps the table -/

/-- A step that gives a name a meaning in the innermost scope, and does nothing else to the table. -/
def Lowering.Binds {α : Type} (name : String) (x : Lowering α) : Prop :=
  ∀ w a w', x w = .ok a w' → ∃ s : Symbol, s.name = name ∧ w.scopes.bind s = .ok w'.scopes

/-- A step that works in the innermost scope, and in scopes of its own that it leaves, until it makes a last change. -/
def Lowering.Until {α : Type} (last : Scopes → Scopes) (x : Lowering α) : Prop :=
  ∀ w a w', x w = .ok a w' → ∃ calls, Scopes.rise? calls = some 0 ∧ w'.scopes = last (w.scopes.run calls)

/-- A step that works in the innermost scope, and in scopes of its own that it leaves. -/
abbrev Lowering.Inside {α : Type} (x : Lowering α) : Prop :=
  x.Until id

namespace Lowering

variable {α β : Type} {y : Lowering α} {next : α → Lowering β} {id : TypeId} {loc : Loc} {name : String}
  {params : List (TypeId × PassMode)} {binder : Binder} {init : Option Operand} {n : Node} {ns : List Node}

theorem restores_localType : Restores (localType binder init loc) := by
  unfold localType
  grind

theorem restores_expression (h : n.Confined) (hn : n.definesName = false) : Restores (expression n) := by
  induction h with
  | @mk loc form hchildren hconfined ih =>
    refine closed_restores.expression ?_ fun c hc => ih c (Form.mem_children_of_confined hc) (hconfined c hc)
    rintro binder init rfl
    cases hn

/-! ### Scopes of a statement -/

variable {last : Scopes → Scopes}

theorem Restores.inside (hy : Restores y) : Inside y :=
  fun w a w' h => ⟨[], rfl, hy w a w' h⟩

theorem Binds.inside (hy : Binds name y) : Inside y := by
  intro w a w' h
  obtain ⟨s, -, hbind⟩ := hy w a w' h
  exact ⟨[.bind s], rfl, by simp [Scopes.run, Scopes.apply, hbind, Except.toOption]⟩

theorem Restores.binds (hy : Restores y) (hnext : ∀ a, Binds name (next a)) : Binds name (y >>= next) := by
  intro w b w' h
  obtain ⟨a, w₁, hrun, hrest⟩ := run_bind.mp h
  exact hy w a w₁ hrun ▸ hnext a w₁ b w' hrest

theorem Binds.then (hy : Binds name y) (hnext : ∀ a, Restores (next a)) : Binds name (y >>= next) := by
  intro w b w' h
  obtain ⟨a, w₁, hrun, hrest⟩ := run_bind.mp h
  exact hnext a w₁ b w' hrest ▸ hy w a w₁ hrun

theorem binds_bindSymbol {symbol : Symbol} : Binds symbol.name (Lowering.bind symbol) := by
  intro w a w' h
  obtain ⟨scopes, hbind, rfl⟩ := run_bindSymbol.mp h
  exact ⟨symbol, rfl, hbind⟩

theorem Inside.bind (hy : Inside y) (hnext : ∀ a, (next a).Until last) : (y >>= next).Until last := by
  intro w b w' h
  obtain ⟨a, w₁, hrun, hrest⟩ := run_bind.mp h
  obtain ⟨calls, hrise, hcalls⟩ := hy w a w₁ hrun
  obtain ⟨calls', hrise', hcalls'⟩ := hnext a w₁ b w' hrest
  refine ⟨calls ++ calls', ?_, ?_⟩
  · rw [Scopes.rise?, List.foldlM_append, ← Scopes.rise?, hrise]
    exact hrise'
  · rw [hcalls', hcalls, Scopes.run, Scopes.run, Scopes.run, List.foldl_append]
    rfl

theorem Restores.leave {rest : Unit → Lowering α} (h : Restores (rest ())) : (leaveScope >>= rest).Until Scopes.leave := by
  intro w a w' hrun
  obtain ⟨u, w₁, hleave, hrest⟩ := run_bind.mp hrun
  cases hleave
  exact ⟨[], rfl, h _ a w' hrest⟩

theorem Until.scope {rest : Unit → Lowering α} (h : (rest ()).Until Scopes.leave) : Restores (enterScope >>= rest) := by
  intro w a w' hrun
  obtain ⟨u, w₁, henter, hrest⟩ := run_bind.mp hrun
  cases henter
  obtain ⟨calls, hrise, hcalls⟩ := h _ a w' hrest
  have hscope := Scopes.run_scope hrise w.scopes
  rw [Scopes.run, List.foldl_concat] at hscope
  exact hcalls.trans hscope

/-! ### Statements -/

theorem binds_bindLocal : Binds binder.name (bindLocal binder init loc) := by
  refine restores_localType.binds fun _ => calm_immutableOf.restores.binds fun type => ?_
  refine calm_checkSized.restores.binds fun _ => calm_irOf.restores.binds fun ir => calm_localStart.restores.binds fun start => ?_
  refine restores_build.binds fun slot => restores_build.binds fun _ => ?_
  extract_lets named
  have hnamed (type : TypeId) : Binds binder.name (named type) := Binds.then binds_bindSymbol fun _ => calm_pure.restores
  split
  · exact calm_mutableOf.restores.binds hnamed
  · exact calm_pure.restores.binds hnamed

/-- The definition of a local variable gives its name a meaning, behind the initial value. -/
theorem binds_define {init : Option Node} (h : Node.Confined ⟨loc, .define binder init⟩) :
    Binds binder.name (statement ⟨loc, .define binder init⟩) := by
  obtain ⟨hchildren, hconfined⟩ := h
  have hinit : Restores (initial init) := by
    cases init with
    | none => exact calm_pure.restores
    | some n =>
      have hn := restores_expression (hchildren n (by simp [Form.children])) (hconfined n (by simp [Form.confined, Form.checked, Form.children]))
      unfold initial
      grind
  unfold statement
  refine Binds.then ?_ fun _ => calm_pure.restores
  unfold expression
  exact calm_checkNotReserved.restores.binds fun _ => hinit.binds fun _ => binds_bindLocal

theorem inside_statement (hn : n.Confined) (h : n.definesName = false → Restores (statement n)) : Inside (statement n) := by
  cases hd : n.definesName with
  | false => exact (h hd).inside
  | true =>
    obtain ⟨loc, form⟩ := n
    cases form <;> first | exact absurd hd Bool.false_ne_true | exact (binds_define hn).inside

theorem scoped_restores : Scoped (fun _ x => Restores x) fun last _ x => x.Until last :=
  ⟨closed_restores, Restores.inside, binds_bindSymbol.inside, Inside.bind, Restores.leave, Until.scope⟩

/-- Statements that do not define a variable leave the names as they were. -/
theorem restores_statement (h : n.Confined) (hn : n.definesName = false) : Restores (statement n) := by
  induction h with
  | @mk loc form hchildren hconfined ih =>
    have hall : ∀ c ∈ form.confined, Restores (statement c) := fun c hc => ih c (Form.mem_children_of_confined hc) (hconfined c hc)
    have hexpr : ∀ c ∈ form.confined, Restores (expression c) := fun c hc =>
      restores_expression (hchildren c (Form.mem_children_of_confined hc)) (hconfined c hc)
    have hself := restores_expression ⟨hchildren, hconfined⟩ hn
    refine scoped_restores.statement hself hexpr hall fun c hc => ?_
    exact inside_statement (hchildren c (Form.mem_children_of_checked hc)) (ih c (Form.mem_children_of_checked hc))

/-! ### Functions -/

theorem restores_definition (h : n.Confined) : Restores (definition n) := by
  unfold definition
  split
  · obtain ⟨hchildren, hconfined⟩ := h
    refine scoped_restores.body (Restores.inside (restores_statement (hchildren _ ?_) (hconfined _ ?_)))
    · simp [Form.children]
    · simp [Form.confined, Form.checked, Form.children]
  · exact calm_pure.restores

end Lowering

/-- A name is given a meaning, or nothing has changed. -/
theorem Lowering.run_bind_symbol (symbol : Symbol) (w : Workspace) :
    (∃ f, Lowering.bind symbol w = .error f w ∧ w.scopes.apply (.bind symbol) = w.scopes) ∨
      Lowering.bind symbol w = .ok () { w with scopes := w.scopes.apply (.bind symbol) } := by
  simp only [Lowering.bind, Bind.bind, EStateM.bind, get_apply, Scopes.apply]
  cases w.scopes.bind symbol with
  | error f => exact .inl ⟨f, rfl, rfl⟩
  | ok scopes => exact .inr rfl

/-- Names are scoped as they are written. A lookup finds the symbol that is visible behind the calls that were made; a name is given a
meaning if it is new in the innermost scope, and else nothing changes; and a scope that is left is gone. In the tree of a source, every
function leaves the table as it was, and so does every statement but the definition of a variable, which gives its name a meaning in the
innermost scope. -/
theorem Scopes.lexical :
    (∀ calls depth, rise? calls = some depth →
      (∀ name s, (run initial calls).find? name = some s ↔ s.name = name ∧ Visible calls s) ∧
      ∀ symbol, (∃ t, (run initial calls).bind symbol = .ok t) ↔ FreshIn calls symbol.name) ∧
    (∀ symbol w, (∃ f, Lowering.bind symbol w = .error f w ∧ w.scopes.apply (.bind symbol) = w.scopes) ∨
      Lowering.bind symbol w = .ok () { w with scopes := w.scopes.apply (.bind symbol) }) ∧
    (∀ calls, rise? calls = some 0 → ∀ t : Scopes, t.run (.enter :: calls ++ [.leave]) = t) ∧
    ∀ source root, Node.parse source = .ok root → ∀ i ∈ root.items,
      (∀ w u w', Lowering.definition i w = .ok u w' → w'.scopes = w.scopes) ∧
      ∀ n, n.Within i → ∀ w u w', Lowering.statement n w = .ok u w' →
        (n.definesName = false → w'.scopes = w.scopes) ∧
        ∀ loc binder init, n = ⟨loc, .define binder init⟩ →
          ∃ s : Symbol, s.name = binder.name ∧ w.scopes.bind s = .ok w'.scopes := by
  refine ⟨fun calls depth h => ⟨fun name s => find?_run h, fun symbol => bind_run h⟩, Lowering.run_bind_symbol, ?_, ?_⟩
  · exact fun calls h => run_scope h
  · intro source root h i hi
    have hconfined := (Node.isItem_of_parse h i hi).confined
    refine ⟨Lowering.restores_definition hconfined, fun n hn w u w' hrun => ⟨fun hdef => ?_, ?_⟩⟩
    · exact Lowering.restores_statement (hconfined.within hn) hdef w u w' hrun
    · rintro loc binder init rfl
      exact Lowering.binds_define (hconfined.within hn) w u w' hrun

/-- In a scope inside another, a name that both have stands for the inner symbol, until the scope is left. A function that names a parameter
and a local variable alike leaves the table as it was, and so does a block in it. -/
theorem Scopes.lexical_shadowed :
    let outer : Symbol := ⟨"a", .place 0 (.global "a") true, .start, false⟩
    let inner : Symbol := ⟨"a", .place 0 (.register 0) true, .start, false⟩
    let source := "def f(a: i32): void \x7b \x7b \x7d let a: i32 = 1; \x7d"
    (rise? [.bind outer, .enter, .bind inner] = some 1 ∧ Visible [.bind outer, .enter, .bind inner] inner ∧
      ¬FreshIn [.bind outer, .enter, .bind inner] "a") ∧
    (rise? [.bind inner] = some 0 ∧ run [[outer]] [.enter, .bind inner, .leave] = [[outer]]) ∧
    ∃ root i n w w' v v', Node.parse source = .ok root ∧ i ∈ root.items ∧
      (Lowering.definition i w = .ok () w' ∧ w'.scopes = w.scopes) ∧
      n.Within i ∧ Lowering.statement n v = .ok () v' ∧ n.definesName = false ∧ v'.scopes = v.scopes := by
  intro outer inner source
  obtain ⟨hcalls, -, hscope, htree⟩ := lexical
  refine ⟨⟨rfl, (((hcalls _ 1 rfl).1 "a" inner).mp rfl).2, fun hfresh => ?_⟩, ⟨rfl, hscope [.bind inner] rfl [[outer]]⟩, ?_⟩
  · obtain ⟨t, ht⟩ := ((hcalls [.bind outer, .enter, .bind inner] 1 rfl).2 inner).mpr hfresh
    cases ht
  · let start : Workspace := { types := .initial false, builder := .named "f" }
    have hrun : ((Node.parse source).toOption.bind fun root => root.items.head?.bind fun i =>
        (EStateM.run' (Lowering.declaration i >>= fun _ => Lowering.definition i) start).bind fun _ =>
        i.form.children[1]?.bind fun body => body.form.children.head?.bind fun n =>
        (EStateM.run' (Lowering.statement n) start).bind fun _ => guard (n.definesName = false)).isSome = true := by
      decide +kernel
    have hok : ∀ {x : Lowering Unit} {w : Workspace} {u : Unit}, EStateM.run' x w = some u → ∃ w', x w = .ok () w' := by
      intro x w u h
      unfold EStateM.run' at h
      split at h
      · exact ⟨_, ‹_›⟩
      · cases h
    simp only [Option.isSome_iff_exists, Option.bind_eq_some_iff, List.head?_eq_getElem?] at hrun
    obtain ⟨_, root, hroot, i, hi, _, hdefinition, body, hbody, n, hn, _, hstatement, hguard⟩ := hrun
    have hroot : Node.parse source = .ok root := by
      cases hparse : Node.parse source <;> simp_all [Except.toOption]
    obtain ⟨w', hw'⟩ := hok hdefinition
    obtain ⟨_, w, -, hw⟩ := run_bind.mp hw'
    obtain ⟨v', hv'⟩ := hok hstatement
    have hi := List.mem_of_getElem? hi
    have hwithin : n.Within i := by
      obtain ⟨loc, form⟩ := i
      obtain ⟨loc', form'⟩ := body
      exact .child (List.mem_of_getElem? hbody) (.child (List.mem_of_getElem? hn) .self)
    obtain ⟨hdef, hstat⟩ := htree _ root hroot i hi
    have hdefines : n.definesName = false := by simpa [guard] using hguard
    have hkept := (hstat n hwithin start () v' hv').1 hdefines
    exact ⟨root, i, n, w, w', start, v', hroot, hi, ⟨hw, hdef w () w' hw⟩, hwithin, hv', hdefines, hkept⟩

end Ember
