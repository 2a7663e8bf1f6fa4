import Ember.Number.Double
import Ember.Tree.Operator

/-!
# Syntax trees

A node is a location and a form: what stands there, over its children. The form leaves the type of the children open, so
that one definition serves trees, results over trees and tables of numbered nodes. One tree type holds expressions,
statements and items alike; which of them may stand where is checked after parsing.
-/

namespace Ember

/-- How the target of an import was qualified. -/
inductive ImportKind where
  | unspecified | module | package
deriving DecidableEq, Repr

/-- The head of a variable definition. -/
structure Binder where
  name : String
  type : Option TypeRef
  /-- The type is that of the initial value. -/
  inferred : Bool
  mutable : Bool
deriving DecidableEq, Repr

/-- What stands at a node, over children of type `α`. -/
inductive Form (α : Type) where
  /-- A name that stands for its variable, not for the value of it. -/
  | identifier (name : String)
  /-- A name that stands for the value of its variable. -/
  | variable (name : String)
  | define (binder : Binder) (init : Option α)
  | defineGlobal (binder : Binder) (init : Option α)
  | cast (expr : α) (type : TypeRef)
  | call (callee : α) (args : List α)
  | member (object : α) (name : String)
  | subscript (object index : α)
  | slice (object : α) (first last : Option α)
  | integer (n : Int64)
  | floating (x : Double)
  /-- A text, perhaps one for C. -/
  | string (value : String) (forC : Bool)
  /-- A character by its code, perhaps a byte. -/
  | character (code : Nat) (byte : Bool)
  | boolean (value : Bool)
  | nothing
  | unary (op : Operator) (operand : α)
  | binary (op : Operator) (left right : α)
  | assign (op : Operator) (target value : α)
  | empty
  | block (stmts : List α)
  | expression (expr : α)
  | branch (cond yes : α) (no : Option α)
  | forLoop (init cond step : Option α) (body : α)
  | whileLoop (cond body : α)
  | forEach (iterator iteratee body : α)
  | ret (value : Option α)
  | importUnit (target : String) (kind : ImportKind) (isPath : Bool)
  | nameUnit (name : String)
  | alias (name : String) (target : TypeRef)
  | parameter (definition : α) (mode : PassMode)
  | prototype (name : String) (returns : TypeRef) (params : List α) (inlined : Bool)
  | function (head : α) (body : Option α) (declaration : Bool)

namespace Form

/-- The name of the form, in listings of trees and in messages. -/
def name {α : Type} : Form α → String
  | .identifier .. => "Identifier"
  | .variable .. => "VariableReference"
  | .define .. => "VariableDefinition"
  | .defineGlobal .. => "GlobalVariableDefinition"
  | .cast .. => "CastExpression"
  | .call .. => "CallExpression"
  | .member .. => "MemberAccess"
  | .subscript .. => "Subscript"
  | .slice .. => "SubscriptRanged"
  | .integer .. => "IntegerLiteral"
  | .floating .. => "FloatLiteral"
  | .string .. => "StringLiteral"
  | .character .. => "CharLiteral"
  | .boolean .. => "BoolLiteral"
  | .nothing => "NoneLiteral"
  | .unary .. => "UnaryOperator"
  | .binary .. => "BinaryOperator"
  | .assign .. => "AssignmentOperator"
  | .empty => "EmptyStatement"
  | .block .. => "BlockStatement"
  | .expression .. => "ExpressionStatement"
  | .branch .. => "IfStatement"
  | .forLoop .. => "ForStatement"
  | .whileLoop .. => "WhileStatement"
  | .forEach .. => "ForEachStatement"
  | .ret .. => "ReturnStatement"
  | .importUnit .. => "ImportStatement"
  | .nameUnit .. => "ModuleStatement"
  | .alias .. => "TypeAliasStatement"
  | .parameter .. => "FunctionParameter"
  | .prototype .. => "FunctionPrototype"
  | .function .. => "FunctionDefinition"

/-- The children, in the order of the source. -/
def children {α : Type} : Form α → List α
  | .define _ init => init.toList
  | .defineGlobal _ init => init.toList
  | .cast expr _ => [expr]
  | .call callee args => callee :: args
  | .member object _ => [object]
  | .subscript object index => [object, index]
  | .slice object first last => object :: (first.toList ++ last.toList)
  | .unary _ operand => [operand]
  | .binary _ left right => [left, right]
  | .assign _ target value => [target, value]
  | .block stmts => stmts
  | .expression expr => [expr]
  | .branch cond yes no => cond :: yes :: no.toList
  | .forLoop init cond step body => init.toList ++ cond.toList ++ step.toList ++ [body]
  | .whileLoop cond body => [cond, body]
  | .forEach iterator iteratee body => [iterator, iteratee, body]
  | .ret value => value.toList
  | .parameter definition _ => [definition]
  | .prototype _ _ params _ => params
  | .function head body _ => head :: body.toList
  | _ => []

end Form

/-- A syntax tree. -/
inductive Node where
  | mk (loc : Loc) (form : Form Node)

instance : Inhabited Node := ⟨⟨.start, .empty⟩⟩

namespace Node

def loc : Node → Loc
  | ⟨loc, _⟩ => loc

def form : Node → Form Node
  | ⟨_, form⟩ => form

/-- The node with the same form at another location. -/
def moveTo (n : Node) (loc : Loc) : Node :=
  ⟨loc, n.form⟩

/-- The statements of a block; another form has none. -/
def items : Node → List Node
  | ⟨_, .block stmts⟩ => stmts
  | _ => []

mutual

/-- The result of a tree, from the results of the children of each node. The step sees every child together with its
result. -/
def recurse {β : Type} (step : Loc → Form (Node × β) → β) : Node → β
  | ⟨loc, form⟩ => step loc (recurseForm step form)

/-- Pairs the children of a form with their results. -/
def recurseForm {β : Type} (step : Loc → Form (Node × β) → β) : Form Node → Form (Node × β)
  | .identifier name => .identifier name
  | .variable name => .variable name
  | .define binder init => .define binder (recurseOption step init)
  | .defineGlobal binder init => .defineGlobal binder (recurseOption step init)
  | .cast expr type => .cast (expr, recurse step expr) type
  | .call callee args => .call (callee, recurse step callee) (recurseList step args)
  | .member object name => .member (object, recurse step object) name
  | .subscript object index => .subscript (object, recurse step object) (index, recurse step index)
  | .slice object first last =>
    .slice (object, recurse step object) (recurseOption step first) (recurseOption step last)
  | .integer n => .integer n
  | .floating x => .floating x
  | .string value forC => .string value forC
  | .character code byte => .character code byte
  | .boolean value => .boolean value
  | .nothing => .nothing
  | .unary op operand => .unary op (operand, recurse step operand)
  | .binary op left right => .binary op (left, recurse step left) (right, recurse step right)
  | .assign op target value => .assign op (target, recurse step target) (value, recurse step value)
  | .empty => .empty
  | .block stmts => .block (recurseList step stmts)
  | .expression expr => .expression (expr, recurse step expr)
  | .branch cond yes no => .branch (cond, recurse step cond) (yes, recurse step yes) (recurseOption step no)
  | .forLoop init cond iterate body =>
    .forLoop (recurseOption step init) (recurseOption step cond) (recurseOption step iterate) (body, recurse step body)
  | .whileLoop cond body => .whileLoop (cond, recurse step cond) (body, recurse step body)
  | .forEach iterator iteratee body =>
    .forEach (iterator, recurse step iterator) (iteratee, recurse step iteratee) (body, recurse step body)
  | .ret value => .ret (recurseOption step value)
  | .importUnit target kind isPath => .importUnit target kind isPath
  | .nameUnit name => .nameUnit name
  | .alias name target => .alias name target
  | .parameter definition mode => .parameter (definition, recurse step definition) mode
  | .prototype name returns params inlined => .prototype name returns (recurseList step params) inlined
  | .function head body declaration =>
    .function (head, recurse step head) (recurseOption step body) declaration

/-- Pairs the members of a list with their results. -/
def recurseList {β : Type} (step : Loc → Form (Node × β) → β) : List Node → List (Node × β)
  | [] => []
  | n :: ns => (n, recurse step n) :: recurseList step ns

/-- Pairs an optional child with its result. -/
def recurseOption {β : Type} (step : Loc → Form (Node × β) → β) : Option Node → Option (Node × β)
  | none => none
  | some n => some (n, recurse step n)

end

/-- The number of nodes of a tree. -/
def size : Node → Nat :=
  recurse fun _ form => 1 + form.children.foldr (fun child n => child.2 + n) 0

/-- For every node in pre-order, the position of its parent in that order. The tree starts at `position`. -/
def parentsFrom : Node → (parent : Option Nat) → (position : Nat) → List (Option Nat) :=
  recurse fun _ form parent position =>
    let below := form.children.foldl
      (fun (acc : List (Option Nat)) child => acc ++ child.2 (some position) (position + 1 + acc.length)) []
    parent :: below

/-- The parents of a whole tree; the root has none. -/
def parents (n : Node) : List (Option Nat) :=
  n.parentsFrom none 0

end Node

end Ember
