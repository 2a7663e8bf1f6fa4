import Ember.Tree.Node
import Mathlib.Tactic.Common

/-!
# Trees

Induction over trees by the children of a form, and results over trees as results over their children.
-/

namespace Ember

namespace Form

/-- The form with other children. -/
def map {α β : Type} (g : α → β) : Form α → Form β
  | .identifier name => .identifier name
  | .variable name => .variable name
  | .define binder init => .define binder (init.map g)
  | .defineGlobal binder init => .defineGlobal binder (init.map g)
  | .cast expr type => .cast (g expr) type
  | .call callee args => .call (g callee) (args.map g)
  | .member object name => .member (g object) name
  | .subscript object index => .subscript (g object) (g index)
  | .slice object first last => .slice (g object) (first.map g) (last.map g)
  | .integer n => .integer n
  | .floating x => .floating x
  | .string value forC => .string value forC
  | .character code byte => .character code byte
  | .boolean value => .boolean value
  | .nothing => .nothing
  | .unary op operand => .unary op (g operand)
  | .binary op left right => .binary op (g left) (g right)
  | .assign op target value => .assign op (g target) (g value)
  | .empty => .empty
  | .block stmts => .block (stmts.map g)
  | .expression expr => .expression (g expr)
  | .branch cond yes no => .branch (g cond) (g yes) (no.map g)
  | .forLoop init cond step body => .forLoop (init.map g) (cond.map g) (step.map g) (g body)
  | .whileLoop cond body => .whileLoop (g cond) (g body)
  | .forEach iterator iteratee body => .forEach (g iterator) (g iteratee) (g body)
  | .ret value => .ret (value.map g)
  | .importUnit target kind isPath => .importUnit target kind isPath
  | .nameUnit name => .nameUnit name
  | .alias name target => .alias name target
  | .parameter definition mode => .parameter (g definition) mode
  | .prototype name returns params inlined => .prototype name returns (params.map g) inlined
  | .function head body declaration => .function (g head) (body.map g) declaration

@[simp] theorem children_map {α β : Type} (g : α → β) (form : Form α) : (form.map g).children = form.children.map g := by
  have hopt : ∀ o : Option α, (o.map g).toList = o.toList.map g := fun o => by cases o <;> rfl
  cases form <;> simp [map, children, hopt]

theorem map_map {α β γ : Type} (g : α → β) (g' : β → γ) (form : Form α) : (form.map g).map g' = form.map (g' ∘ g) := by
  cases form <;> simp [map]

end Form

namespace Node

/-- A child is smaller than the form that it is a part of. -/
theorem sizeOf_lt_of_mem {form : Form Node} {c : Node} (hc : c ∈ form.children) : sizeOf c < sizeOf form := by
  have hlist : ∀ {ns : List Node}, c ∈ ns → sizeOf c < sizeOf ns := List.sizeOf_lt_of_mem
  have hoption : ∀ {o : Option Node}, o = some c → sizeOf c < sizeOf o := by
    rintro _ rfl
    simp
  cases form <;> simp only [Form.children, List.mem_cons, List.mem_append, List.not_mem_nil, or_false, Option.mem_toList] at hc
  all_goals grind

/-- What holds of a node if it holds of its children holds of every tree. -/
theorem induction {P : Node → Prop} (h : ∀ loc form, (∀ c ∈ form.children, P c) → P ⟨loc, form⟩) (n : Node) : P n := by
  obtain ⟨loc, form⟩ := n
  exact h loc form fun c hc => induction h c
termination_by n
decreasing_by
  have := sizeOf_lt_of_mem hc
  simp only [mk.sizeOf_spec]
  omega

section

variable {β : Type} (step : Loc → Form (Node × β) → β)

theorem recurseList_eq (ns : List Node) : recurseList step ns = ns.map fun n => (n, n.recurse step) := by
  induction ns with
  | nil => rw [recurseList, List.map_nil]
  | cons n ns ih => rw [recurseList, List.map_cons, ih]

theorem recurseOption_eq (o : Option Node) : recurseOption step o = o.map fun n => (n, n.recurse step) := by
  cases o <;> rw [recurseOption] <;> rfl

/-- The result of a tree is the step at its root, over its children with their results. -/
theorem recurse_mk (loc : Loc) (form : Form Node) : recurse step ⟨loc, form⟩ = step loc (form.map fun n => (n, n.recurse step)) := by
  rw [recurse]
  congr 1
  cases form <;> simp only [recurseForm, Form.map, recurseList_eq, recurseOption_eq]

end

/-- What a step keeps from the results of the children holds of the result of every tree. -/
theorem recurse_induction {β : Type} {step : Loc → Form (Node × β) → β} {P : β → Prop}
    (h : ∀ loc form, (∀ c ∈ form.children, P c.2) → P (step loc form)) (n : Node) : P (n.recurse step) := by
  induction n using induction with
  | h loc form ih =>
    rw [recurse_mk]
    refine h loc _ fun c hc => ?_
    rw [Form.children_map] at hc
    obtain ⟨n, hn, rfl⟩ := List.mem_map.mp hc
    exact ih n hn

end Node

end Ember
