import Ember.Tree.Listing
import Ember.Tree.Parse.Item

/-!
# Arenas

The nodes of a source in one table, where each is known by its number. The parser adds a node behind its children, and gives the root,
which is there from the start, its items in the end. Nodes are walked in three ways: to list them, to link them to their parents, and
to print them. A walk on a tree takes every node once, so the number of nodes bounds it.
-/

namespace Ember

/-- A node of an arena, by its number. -/
abbrev NodeId := Nat

/-- What an arena holds for a node. -/
structure Arena.Entry where
  loc : Loc
  form : Form NodeId
  parent : Option NodeId := none

/-- A table of nodes. -/
structure Arena where
  nodes : Array Arena.Entry
  root : NodeId

/-- The children that a visitor comes to, by the kinds of nodes that it tells apart. -/
def Form.visited {α : Type} : Form α → List α
  | .block stmts => stmts
  | .define _ init => init.toList
  | .defineGlobal _ init => init.toList
  | .parameter definition _ => [definition]
  | .function head body _ => head :: body.toList
  | form => form.children

namespace Arena

/-- An arena that holds an empty root only. -/
def start : Arena where
  nodes := #[{ loc := .start, form := .block [] }]
  root := 0

def size (a : Arena) : Nat :=
  a.nodes.size

def form (a : Arena) (id : NodeId) : Form NodeId :=
  (a.nodes[id]?.map (·.form)).getD .empty

def loc (a : Arena) (id : NodeId) : Loc :=
  (a.nodes[id]?.map (·.loc)).getD .start

def parent? (a : Arena) (id : NodeId) : Option NodeId :=
  a.nodes[id]?.bind (·.parent)

def children (a : Arena) (id : NodeId) : List NodeId :=
  (a.form id).children

/-- Changes one node. -/
def modify (a : Arena) (id : NodeId) (change : Entry → Entry) : Arena :=
  { a with nodes := a.nodes.modify id change }

instance : NodeStore Arena NodeId where
  add a loc form := (a.size, { a with nodes := a.nodes.push { loc, form } })
  form a id := a.form id
  change a id loc form := (id, a.modify id fun e => { e with loc := loc.getD e.loc, form })

/-- The arena of a row of tokens. -/
def ofTokens (tokens : List Token) : Except Fault Arena := do
  let (items, a) ← NodeStore.itemsOf start tokens
  return a.modify a.root fun e => { e with form := .block items }

/-- The arena of a source. -/
def parse (source : String) : Except Fault Arena :=
  ofTokens (Token.scan source)

/-! ## Walks -/

/-- Takes nodes from a stack; the children of a node come before what is left on the stack. -/
def walk (a : Arena) : (fuel : Nat) → (stack : List NodeId) → List NodeId
  | 0, _ => []
  | _, [] => []
  | fuel + 1, id :: stack => id :: walk a fuel (a.children id ++ stack)

/-- The nodes below the root, in pre-order. -/
def reachable (a : Arena) : List NodeId :=
  a.walk a.size [a.root]

/-- Links the children of a node to it. -/
def adopt (a : Arena) (id : NodeId) : Arena :=
  (a.children id).foldl (fun a child => a.modify child fun e => { e with parent := some id }) a

/-- Links the children of the nodes on a stack, and so on for those that are linked; the last child comes first. -/
def adoptAll : (fuel : Nat) → (stack : List NodeId) → Arena → Arena
  | 0, _, a => a
  | _, [], a => a
  | fuel + 1, id :: stack, a => adoptAll fuel ((a.children id).reverse ++ stack) (a.adopt id)

/-- Links every node below the root to its parent; a link that was there before is dropped. -/
def solveParents (a : Arena) : Arena :=
  let cleared : Arena := { a with nodes := a.nodes.map fun e => { e with parent := none } }
  cleared.adoptAll cleared.size [cleared.root]

/-- The lines of what is below a node at a depth. -/
def visit (a : Arena) : (fuel depth : Nat) → NodeId → List String
  | 0, _, _ => []
  | fuel + 1, depth, id =>
    (a.form id).line (a.loc id) depth :: (a.form id).visited.flatMap (visit a fuel (depth + 1))

/-- The listing of an arena. -/
def dump (a : Arena) : String :=
  String.join (a.visit a.size 0 a.root)

end Arena

end Ember
