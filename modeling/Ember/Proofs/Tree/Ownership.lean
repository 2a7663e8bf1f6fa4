import Ember.Tree.Parse.Item
import Mathlib.Tactic.Common

/-!
# Who owns a node

A parser hands a node that it made to one place only: it becomes a child of another node, or it is given back. So a statement about the
nodes of a store that are nobody's child yet (`Ownership`) is kept by every parser, provided that it is kept when a node is made out of
some of them and when a leaf is changed into another leaf. `Builds p given roots` says what a parser `p` does with the nodes that it is
given, for any other nodes that are waiting: it gives back those that its result names.
-/

namespace Ember

/-- A statement about a store and the nodes that are nobody's child. -/
structure Ownership (σ : Type) {ν : Type} [NodeStore σ ν] where
  Owns : σ → List ν → Prop
  add {s : σ} {loc : Loc} {form : Form ν} {before after : List ν} : Owns s (before ++ form.children ++ after) →
    Owns (NodeStore.add s loc form).2 (before ++ (NodeStore.add s loc form).1 :: after)
  change {s : σ} {n : ν} {loc : Option Loc} {form : Form ν} {before after : List ν} : Owns s (before ++ n :: after) →
    (NodeStore.form s n).children = [] → form.children = [] →
    Owns (NodeStore.change s n loc form).2 (before ++ (NodeStore.change s n loc form).1 :: after)

namespace Parser

variable {σ ν α β : Type} [NodeStore σ ν] {O : Ownership σ (ν := ν)}

/-- The parser leaves the store as it is. -/
def Quiet (p : Parser σ α) : Prop :=
  ∀ r x r', p r = .ok (x, r') → r'.store = r.store

/-- The parser takes the given nodes, and gives back those of its result. -/
def Builds (O : Ownership σ (ν := ν)) (p : Parser σ α) (given : List ν) (roots : α → List ν) : Prop :=
  ∀ before after r x r', O.Owns r.store (before ++ given ++ after) → p r = .ok (x, r') → O.Owns r'.store (before ++ roots x ++ after)

/-! ## Rules -/

/-- The run of a sequence, split into its parts. -/
theorem run_bind_ok {p : Parser σ α} {next : α → Parser σ β} {r r'' : Reading σ} {y : β} (h : (p >>= next) r = .ok (y, r'')) :
    ∃ x r', p r = .ok (x, r') ∧ next x r' = .ok (y, r'') := by
  have h : (p r).bind (fun (x, r') => next x r') = .ok (y, r'') := h
  cases hp : p r with
  | error f => simp [hp, Except.bind] at h
  | ok v => exact ⟨v.1, v.2, rfl, by simpa [hp, Except.bind] using h⟩

section Quiet

theorem Quiet.bind {p : Parser σ α} {next : α → Parser σ β} (h : Quiet p) (hnext : ∀ x, Quiet (next x)) : Quiet (p >>= next) := by
  intro r y r'' hrun
  obtain ⟨x, r', hp, hn⟩ := run_bind_ok hrun
  exact (hnext x r' y r'' hn).trans (h r x r' hp)

theorem quiet_pure (a : α) : Quiet (pure a : Parser σ α) :=
  fun _ _ _ h => by cases h; rfl

theorem quiet_throw (f : Fault) : Quiet (throw f : Parser σ α) :=
  fun _ _ _ h => by cases h

theorem quiet_get : Quiet (get : Parser σ (Reading σ)) :=
  fun _ _ _ h => by cases h; rfl

theorem quiet_ite {c : Prop} [Decidable c] {p q : Parser σ α} (hp : Quiet p) (hq : Quiet q) : Quiet (if c then p else q) := by
  split
  · exact hp
  · exact hq

theorem quiet_current : Quiet (current : Parser σ Token) :=
  quiet_get.bind fun r => by
    split
    · exact quiet_pure _
    · exact quiet_throw _

theorem quiet_advance : Quiet (advance : Parser σ Token) :=
  quiet_get.bind fun r => by
    split
    · exact Quiet.bind (fun _ _ _ h => by cases h; rfl) fun _ => quiet_pure _
    · exact quiet_pure _
    · exact quiet_throw _

theorem quiet_second : Quiet (second? : Parser σ (Option Kind)) :=
  quiet_get.bind fun r => by split <;> exact quiet_pure _

theorem quiet_here : Quiet (here : Parser σ Loc) :=
  quiet_current.bind fun _ => quiet_pure _

theorem quiet_at (k : Kind) : Quiet (at? k : Parser σ Bool) :=
  quiet_current.bind fun _ => quiet_pure _

theorem quiet_atEnd : Quiet (atEnd : Parser σ Bool) :=
  quiet_at _

theorem quiet_fail (expected : Expectation) : Quiet (fail expected : Parser σ α) :=
  quiet_current.bind fun _ => quiet_throw _

theorem quiet_expect (k : Kind) : Quiet (expect k : Parser σ Token) :=
  (quiet_at k).bind fun _ => quiet_ite quiet_advance (quiet_fail _)

theorem quiet_consume (k : Kind) : Quiet (consume k : Parser σ Bool) :=
  (quiet_at k).bind fun _ => quiet_ite (quiet_advance.bind fun _ => quiet_pure _) (quiet_pure _)

theorem quiet_identifier (expected : Expectation) : Quiet (identifier expected : Parser σ String) :=
  quiet_current.bind fun t => by
    split
    · exact quiet_advance.bind fun _ => quiet_pure _
    · exact quiet_fail _

theorem quiet_typeRef : Quiet (typeRef : Parser σ TypeRef) :=
  quiet_here.bind fun _ => (quiet_consume _).bind fun _ => (quiet_identifier _).bind fun _ => quiet_pure _

theorem quiet_typeAnnotation : Quiet (typeAnnotation? : Parser σ (Option TypeRef)) :=
  (quiet_consume _).bind fun _ => quiet_ite (quiet_typeRef.bind fun _ => quiet_pure _) (quiet_pure _)

theorem quiet_dottedName (parts : Nat) : Quiet (dottedName parts : Parser σ String) := by
  induction parts with
  | zero => exact quiet_identifier _
  | succ parts ih =>
    exact (quiet_identifier _).bind fun _ => (quiet_consume _).bind fun _ => quiet_ite (ih.bind fun _ => quiet_pure _) (quiet_pure _)

theorem quiet_atForEach : Quiet (atForEach : Parser σ Bool) :=
  quiet_current.bind fun _ => quiet_second.bind fun _ => by split <;> exact quiet_pure _

theorem quiet_passMode : Quiet (passMode : Parser σ PassMode) :=
  quiet_current.bind fun _ => by split <;> first | exact quiet_advance.bind fun _ => quiet_pure _ | exact quiet_pure _

end Quiet

section Builds

variable {given : List ν} {roots : α → List ν} {roots' : β → List ν}

variable {p : Parser σ α} {next : α → Parser σ β}

/-- A part that needs no nodes, then the rest with what it made. -/
theorem Builds.bind (h : Builds O p [] roots) (hnext : ∀ x, Builds O (next x) (given ++ roots x) roots') :
    Builds O (p >>= next) given roots' := by
  intro before after r y r'' howns hrun
  obtain ⟨x, r', hp, hn⟩ := run_bind_ok hrun
  have := h (before ++ given) after r x r' (by simpa using howns) hp
  exact hnext x before after r' y r'' (by simpa using this) hn

/-- A part that takes all nodes, then the rest with what it made of them. -/
theorem Builds.then (h : Builds O p given roots) (hnext : ∀ x, Builds O (next x) (roots x) roots') :
    Builds O (p >>= next) given roots' := by
  intro before after r y r'' howns hrun
  obtain ⟨x, r', hp, hn⟩ := run_bind_ok hrun
  exact hnext x before after r' y r'' (h before after r x r' howns hp) hn

/-- A part that leaves the store alone, then the rest. -/
theorem Quiet.builds (h : Quiet p) (hnext : ∀ x, Builds O (next x) given roots') : Builds O (p >>= next) given roots' := by
  intro before after r y r'' howns hrun
  obtain ⟨x, r', hp, hn⟩ := run_bind_ok hrun
  exact hnext x before after r' y r'' (h r x r' hp ▸ howns) hn

theorem builds_pure {a : α} (h : given = roots a) : Builds O (pure a) given roots :=
  fun _ _ _ _ _ howns hrun => by cases hrun; exact h ▸ howns

theorem builds_throw (f : Fault) : Builds O (throw f : Parser σ α) given roots :=
  fun _ _ _ _ _ _ hrun => by cases hrun

theorem builds_fail (expected : Expectation) : Builds O (fail expected : Parser σ α) given roots :=
  quiet_current.builds fun _ => builds_throw _

theorem builds_outOfRange (digits : String) : Builds O (outOfRange digits : Parser σ α) given roots :=
  quiet_here.builds fun _ => builds_throw _

theorem builds_ite {c : Prop} [Decidable c] {q : Parser σ α} (hp : Builds O p given roots) (hq : Builds O q given roots) :
    Builds O (if c then p else q) given roots := by
  split
  · exact hp
  · exact hq

/-- A node is made out of the given nodes. -/
theorem builds_make (loc : Loc) {form : Form ν} (h : form.children = given) : Builds O (make loc form) given fun n => [n] := by
  intro before after r x r' howns hrun
  cases hrun
  rw [List.append_assoc]
  exact O.add (h ▸ howns)

theorem run_asTarget (n : ν) (r : Reading σ) : (asTarget n : Parser σ ν) r = (match NodeStore.form r.store n with
    | .variable name => change n none (.identifier name)
    | _ => pure n : Parser σ ν) r :=
  rfl

theorem run_prefixed (loc : Loc) (op : Operator) (operand : ν) (r : Reading σ) :
    (prefixed loc op operand : Parser σ ν) r = (match op, NodeStore.form r.store operand with
      | .unaryMinus, .integer n => change operand (some loc) (.integer (-n))
      | .unaryMinus, .floating x => change operand (some loc) (.floating x.neg)
      | _, _ => make loc (.unary op operand) : Parser σ ν) r :=
  rfl

/-- A plain name that is assigned to or called is changed in its place. -/
theorem builds_asTarget (n : ν) (rest : List ν) : Builds O (asTarget n : Parser σ ν) (n :: rest) fun m => m :: rest := by
  intro before after r x r' howns hrun
  rw [List.append_assoc] at howns ⊢
  rw [run_asTarget] at hrun
  cases hform : NodeStore.form r.store n with
  | «variable» name =>
    rw [hform] at hrun
    cases hrun
    exact O.change howns (by rw [hform]; rfl) rfl
  | _ =>
    rw [hform] at hrun
    cases hrun
    exact howns

/-- An operator before its operand is a new node, or part of a literal, which is changed in its place. -/
theorem builds_prefixed (loc : Loc) (op : Operator) (operand : ν) : Builds O (prefixed loc op operand : Parser σ ν) [operand] fun n => [n] := by
  intro before after r x r' howns hrun
  rw [run_prefixed] at hrun
  have hmake : make loc (.unary op operand) r = .ok (x, r') → O.Owns r'.store (before ++ [x] ++ after) :=
    builds_make loc rfl before after r x r' howns
  rw [List.append_assoc] at howns ⊢
  cases op with
  | unaryMinus =>
    cases hform : NodeStore.form r.store operand with
    | integer n | floating y =>
      rw [hform] at hrun
      cases hrun
      exact O.change howns (by rw [hform]; rfl) rfl
    | _ =>
      rw [hform] at hrun
      simpa using hmake hrun
  | _ => simpa using hmake hrun

theorem builds_none : Builds O (pure none : Parser σ (Option ν)) [] Option.toList :=
  builds_pure rfl

theorem builds_some {p : Parser σ ν} (h : Builds O p [] fun n => [n]) : Builds O (some <$> p) [] Option.toList :=
  h.then fun _ => builds_pure rfl

/-- One of two parts, by a test, read before `next`. -/
theorem builds_choice {test : Parser σ Bool} {q : Parser σ α} (htest : Quiet test) (hp : Builds O p [] roots) (hq : Builds O q [] roots)
    (hnext : ∀ a, Builds O (next a) (given ++ roots a) roots') :
    Builds O (do if ← test then next (← p) else next (← q) : Parser σ β) given roots' :=
  htest.builds fun _ => builds_ite (hp.bind hnext) (hq.bind hnext)

end Builds

/-! ## Expressions -/

section Nodes

variable (O)

/-- The parsers of expressions with some fuel give back what they make. -/
structure BuildsExpressions (fuel : Nat) : Prop where
  expr : ∀ least, Builds O (expr fuel least : Parser σ ν) [] fun n => [n]
  operators : ∀ least left, Builds O (operators fuel least left : Parser σ ν) [left] fun n => [n]
  unary : Builds O (unary fuel : Parser σ ν) [] fun n => [n]
  suffixed : Builds O (suffixed fuel : Parser σ ν) [] fun n => [n]
  suffixes : ∀ operand, Builds O (suffixes fuel operand : Parser σ ν) [operand] fun n => [n]
  arguments : Builds O (arguments fuel : Parser σ (List ν)) [] id
  primary : Builds O (primary fuel : Parser σ ν) [] fun n => [n]

theorem buildsExpressions (fuel : Nat) : BuildsExpressions O fuel := by
  induction fuel with
  | zero =>
    exact ⟨fun _ => builds_fail _, fun _ _ => builds_fail _, builds_fail _, builds_fail _, fun _ => builds_fail _,
      builds_fail _, builds_fail _⟩
  | succ fuel ih =>
    refine ⟨fun least => ?_, fun least left => ?_, ?_, ?_, fun operand => ?_, ?_, ?_⟩
    · exact ih.unary.then fun left => ih.operators least left
    · refine quiet_current.builds fun t => ?_
      split
      · refine builds_ite (builds_pure rfl) (quiet_advance.builds fun _ => quiet_typeRef.builds fun type => ?_)
        exact (builds_make t.loc rfl).then fun n => ih.operators least n
      · split
        · exact builds_pure rfl
        · refine builds_ite (builds_pure rfl) (quiet_advance.builds fun _ => builds_ite ?_ ?_)
          · exact (ih.expr _).bind fun value => (builds_asTarget left [value]).then fun target =>
              (builds_make t.loc rfl).then fun n => ih.operators least n
          · exact (ih.expr _).bind fun right => (builds_make t.loc rfl).then fun n => ih.operators least n
      · exact builds_pure rfl
    · refine quiet_current.builds fun t => ?_
      split
      · split
        · exact ih.suffixed
        · rename_i op _
          refine quiet_advance.builds fun _ => (quiet_at _).builds fun _ => builds_ite ?_ ?_
          · exact quiet_advance.builds fun _ => builds_make t.loc rfl
          · exact ih.unary.then fun operand => builds_prefixed t.loc op operand
      · exact ih.suffixed
    · exact ih.primary.then fun operand => ih.suffixes operand
    · refine quiet_here.builds fun loc => (quiet_consume _).builds fun _ => builds_ite ?_ ?_
      · exact ih.arguments.bind fun args => (quiet_expect _).builds fun _ => (builds_asTarget operand args).then fun callee =>
          (builds_make loc rfl).then fun n => ih.suffixes n
      · refine (quiet_consume _).builds fun _ => builds_ite ?_ ?_
        · exact (quiet_identifier _).builds fun name => (builds_make loc rfl).then fun n => ih.suffixes n
        · refine (quiet_consume _).builds fun _ => builds_ite ?_ (builds_pure rfl)
          refine builds_choice (quiet_at _) builds_none (builds_some (ih.expr 0)) fun first => (quiet_consume _).builds fun _ => builds_ite ?_ ?_
          · refine builds_choice (quiet_at _) builds_none (builds_some (ih.expr 0)) fun last => (quiet_expect _).builds fun _ => ?_
            exact (builds_make loc rfl).then fun n => ih.suffixes n
          · split
            · exact builds_fail _
            · exact (quiet_expect _).builds fun _ => (builds_make loc rfl).then fun n => ih.suffixes n
    · refine (quiet_at _).builds fun _ => quiet_atEnd.builds fun _ => builds_ite (builds_pure rfl) ?_
      refine (ih.expr 0).then fun arg => (quiet_consume _).builds fun _ => builds_ite ?_ (builds_pure rfl)
      exact ih.arguments.bind fun args => builds_pure rfl
    · have hleaf : ∀ (loc : Loc) (form : Form ν), form.children = [] →
          Builds O (do let _ ← advance; make loc form : Parser σ ν) [] fun n => [n] :=
        fun loc form h => quiet_advance.builds fun _ => builds_make loc h
      refine quiet_current.builds fun t => ?_
      obtain ⟨kind, loc⟩ := t
      cases kind with
      | integer n => exact builds_ite (hleaf _ _ rfl) (builds_outOfRange _)
      | oversized digits => exact builds_outOfRange _
      | keyword k =>
        cases k with
        | trueKw | falseKw | noneKw => exact hleaf _ _ rfl
        | _ => exact builds_fail _
      | mark m =>
        cases m with
        | lParen =>
          exact quiet_advance.builds fun _ => (ih.expr 0).then fun inner => (quiet_expect _).builds fun _ => builds_pure rfl
        | _ => exact builds_fail _
      | unknown | endOfFile => exact builds_fail _
      | _ => exact hleaf _ _ rfl

theorem builds_expression (fuel : Nat) : Builds O (expression fuel : Parser σ ν) [] fun n => [n] :=
  (buildsExpressions O fuel).expr 0

/-! ## Statements -/

theorem builds_definition (fuel : Nat) (global : Bool) : Builds O (definition fuel global : Parser σ ν) [] fun n => [n] := by
  refine quiet_advance.builds fun keyword => (quiet_consume _).builds fun marked => (quiet_identifier _).builds fun name =>
    quiet_typeAnnotation.builds fun type => ?_
  refine builds_choice (quiet_consume _) (builds_some (builds_expression O fuel)) builds_none fun init => builds_make _ ?_
  cases global <;> rfl

theorem builds_definitionStatement (fuel : Nat) (global : Bool) : Builds O (definitionStatement fuel global : Parser σ ν) [] fun n => [n] :=
  (builds_definition O fuel global).then fun _ => (quiet_expect _).builds fun _ => builds_pure rfl

variable {O} in
theorem builds_absentAt {part : Parser σ ν} (k : Kind) (h : Builds O part [] fun n => [n]) : Builds O (absentAt k part) [] Option.toList :=
  (quiet_at k).builds fun _ => builds_ite (builds_pure rfl) (h.then fun _ => builds_pure rfl)

theorem builds_returnStatement (fuel : Nat) : Builds O (returnStatement fuel : Parser σ ν) [] fun n => [n] :=
  (quiet_expect _).builds fun _ => (builds_absentAt _ (builds_expression O fuel)).then fun _ => (quiet_expect _).builds fun _ =>
    builds_make _ rfl

theorem builds_loopInit (fuel : Nat) : Builds O (loopInit fuel : Parser σ ν) [] fun n => [n] := by
  refine quiet_current.builds fun t => ?_
  split
  · exact builds_definition O fuel false
  · exact builds_definition O fuel false
  · exact builds_expression O fuel

/-- The parsers of statements with some fuel give back what they make. -/
structure BuildsStatements (fuel : Nat) : Prop where
  block : Builds O (block fuel : Parser σ ν) [] fun n => [n]
  statements : Builds O (statements fuel : Parser σ (List ν)) [] id
  statement : Builds O (statement fuel : Parser σ ν) [] fun n => [n]
  branch : Builds O (branch fuel : Parser σ ν) [] fun n => [n]
  whileStatement : Builds O (whileStatement fuel : Parser σ ν) [] fun n => [n]
  forStatement : Builds O (forStatement fuel : Parser σ ν) [] fun n => [n]

theorem buildsStatements (fuel : Nat) : BuildsStatements O fuel := by
  induction fuel with
  | zero => exact ⟨builds_fail _, builds_fail _, builds_fail _, builds_fail _, builds_fail _, builds_fail _⟩
  | succ fuel ih =>
    refine ⟨?_, ?_, ?_, ?_, ?_, ?_⟩
    · exact (quiet_expect _).builds fun _ => ih.statements.then fun stmts => (quiet_expect _).builds fun _ => builds_make _ rfl
    · refine (quiet_at _).builds fun _ => quiet_atEnd.builds fun _ => builds_ite (builds_pure rfl) ?_
      exact ih.statement.then fun stmt => ih.statements.bind fun stmts => builds_pure rfl
    · refine quiet_current.builds fun t => ?_
      split
      · exact builds_definitionStatement O fuel false
      · exact builds_definitionStatement O fuel false
      · exact ih.branch
      · exact ih.whileStatement
      · exact ih.forStatement
      · exact builds_returnStatement O fuel
      · exact ih.block
      · exact quiet_advance.builds fun _ => builds_make _ rfl
      · exact (builds_expression O fuel).then fun e => (quiet_expect _).builds fun _ => builds_make _ rfl
    · refine (quiet_expect _).builds fun _ => (builds_expression O fuel).then fun cond => ih.block.bind fun yes =>
        (quiet_consume _).builds fun _ => builds_ite ?_ (builds_make _ rfl)
      exact builds_choice (quiet_at _) ih.branch ih.block fun no => builds_make _ rfl
    · exact (quiet_expect _).builds fun _ => (builds_expression O fuel).then fun cond => ih.block.bind fun body => builds_make _ rfl
    · refine (quiet_expect _).builds fun _ => quiet_atForEach.builds fun _ => builds_ite ?_ ?_
      · exact quiet_here.builds fun _ => (quiet_identifier _).builds fun _ => (quiet_expect _).builds fun _ =>
          (builds_make _ rfl).then fun iterator => (builds_expression O fuel).bind fun iteratee => ih.block.bind fun body => builds_make _ rfl
      · exact (builds_absentAt _ (builds_loopInit O fuel)).then fun init => (quiet_expect _).builds fun _ =>
          (builds_absentAt _ (builds_expression O fuel)).bind fun cond => (quiet_expect _).builds fun _ =>
          (builds_absentAt _ (builds_expression O fuel)).bind fun step => ih.block.bind fun body => builds_make _ rfl

/-! ## Items -/

theorem builds_parameter : Builds O (parameter : Parser σ ν) [] fun n => [n] :=
  quiet_here.builds fun _ => quiet_passMode.builds fun _ => quiet_here.builds fun _ => (quiet_identifier _).builds fun _ =>
    quiet_typeAnnotation.builds fun _ => (builds_make _ rfl).then fun _ => builds_make _ rfl

theorem builds_parameters (fuel : Nat) : Builds O (parameters fuel : Parser σ (List ν)) [] id := by
  induction fuel with
  | zero => exact builds_fail _
  | succ fuel ih =>
    refine (quiet_at _).builds fun _ => quiet_atEnd.builds fun _ => builds_ite (builds_pure rfl) ?_
    refine (builds_parameter O).then fun p => (quiet_consume _).builds fun _ => builds_ite ?_ (builds_pure rfl)
    exact ih.bind fun ps => builds_pure rfl

theorem builds_function (fuel : Nat) : Builds O (function fuel : Parser σ ν) [] fun n => [n] := by
  refine quiet_here.builds fun loc => (quiet_consume _).builds fun inlined => (quiet_expect _).builds fun _ =>
    (quiet_identifier _).builds fun name => (quiet_expect _).builds fun _ => (builds_parameters O fuel).then fun params =>
    (quiet_expect _).builds fun _ => quiet_typeAnnotation.builds fun type => ?_
  have hrest : ∀ returns : TypeRef, Builds O (do
      let head ← make loc (.prototype name returns params inlined)
      if ← consume (.mark .semicolon) then make loc (.function head none true)
      else
        let body ← block fuel
        make loc (.function head (some body) false) : Parser σ ν) params fun n => [n] :=
    fun returns => (builds_make loc rfl).then fun head => (quiet_consume _).builds fun _ => builds_ite (builds_make loc rfl)
      ((buildsStatements O fuel).block.bind fun body => builds_make loc rfl)
  split
  · exact (quiet_pure _).builds hrest
  · exact quiet_here.builds fun _ => (quiet_pure _).builds hrest

theorem builds_importItem (fuel : Nat) : Builds O (importItem fuel : Parser σ ν) [] fun n => [n] := by
  refine (quiet_expect _).builds fun t => (quiet_consume _).builds fun _ => builds_ite ?_ ((quiet_consume _).builds fun _ => builds_ite ?_ ?_)
  all_goals
    refine (quiet_pure _).builds fun kind => quiet_current.builds fun _ => ?_
    split
    · exact quiet_advance.builds fun _ => (quiet_pure _).builds fun _ => (quiet_expect _).builds fun _ => builds_make t.loc rfl
    · exact (quiet_dottedName fuel).builds fun _ => (quiet_pure _).builds fun _ => (quiet_expect _).builds fun _ => builds_make t.loc rfl

theorem builds_item (fuel : Nat) : Builds O (item fuel : Parser σ ν) [] fun n => [n] := by
  refine quiet_current.builds fun t => ?_
  split
  · exact builds_function O fuel
  · exact builds_function O fuel
  · exact builds_definitionStatement O fuel true
  · exact builds_definitionStatement O fuel true
  · exact builds_importItem O fuel
  · exact (quiet_expect _).builds fun _ => (quiet_dottedName fuel).builds fun _ => (quiet_expect _).builds fun _ => builds_make _ rfl
  · exact (quiet_expect _).builds fun _ => (quiet_identifier _).builds fun _ => (quiet_expect _).builds fun _ =>
      quiet_typeRef.builds fun _ => (quiet_expect _).builds fun _ => builds_make _ rfl
  · exact quiet_advance.builds fun _ => builds_make _ rfl
  · exact builds_fail _

theorem builds_itemList (fuel count : Nat) : Builds O (itemList fuel count : Parser σ (List ν)) [] id := by
  induction count with
  | zero => exact builds_fail _
  | succ count ih =>
    refine quiet_atEnd.builds fun _ => builds_ite (builds_pure rfl) ?_
    exact (builds_item O fuel).then fun i => ih.bind fun items => builds_pure rfl

end Nodes

end Parser

/-- What is kept by making nodes and changing leaves holds of a store and the items that were parsed into it. -/
theorem Ownership.owns_itemsOf {σ ν : Type} [NodeStore σ ν] (O : Ownership σ (ν := ν)) {store store' : σ} {tokens : List Token}
    {items : List ν} (h : NodeStore.itemsOf store tokens = .ok (items, store')) (hstart : O.Owns store []) : O.Owns store' items := by
  unfold NodeStore.itemsOf at h
  obtain ⟨⟨items', r⟩, hrun, h⟩ : ∃ x, (Parser.itemList (8 * (tokens.length + 1)) (8 * (tokens.length + 1))).run { tokens, store } = .ok x ∧
      (pure (x.1, x.2.store) : Except Fault (List ν × σ)) = .ok (items, store') := by
    cases hrun : (Parser.itemList (8 * (tokens.length + 1)) (8 * (tokens.length + 1))).run { tokens, store } with
    | error f => simp [hrun, Bind.bind, Except.bind] at h
    | ok x => exact ⟨x, rfl, by simpa [hrun, Bind.bind, Except.bind] using h⟩
  cases h
  have := Parser.builds_itemList O _ _ [] [] _ _ _ (by simpa using hstart) hrun
  simpa using this

end Ember
