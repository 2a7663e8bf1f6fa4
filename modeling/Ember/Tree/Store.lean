import Ember.Tree.Node

/-!
# Stores of nodes

Where a parser keeps the nodes that it makes. Nodes can be trees, which need no keeping, or numbers of an arena that holds their
forms.
-/

namespace Ember

/-- A store `σ` that keeps nodes, which are known as `ν`. -/
class NodeStore (σ : Type) (ν : outParam Type) where
  /-- Adds a node with a location and a form. -/
  add : σ → Loc → Form ν → ν × σ
  /-- The form of a node. -/
  form : σ → ν → Form ν
  /-- Gives a node another form, and another location if there is one. -/
  change : σ → ν → Option Loc → Form ν → ν × σ

/-- The store of trees, which holds nothing: a tree has its children with it. -/
abbrev Forest := Unit

instance : NodeStore Forest Node where
  add forest loc form := (⟨loc, form⟩, forest)
  form _ n := n.form
  change forest n loc form := (⟨loc.getD n.loc, form⟩, forest)

end Ember
