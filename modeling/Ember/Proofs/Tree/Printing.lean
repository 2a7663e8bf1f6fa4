import Ember.Proofs.Tree.Grammar
import Ember.Proofs.Tree.Node
import Ember.Tree.Listing

/-!
# Printing trees

A tree as the kinds of the tokens that write it. Every form of an expression holds together with some power, and every place of an
operand asks for one: an operator that groups to the left asks for more at its right than at its left, an assignment the other way
round. A form that has less power than its place asks for is put in parentheses, and no other.
-/

namespace Ember

/-- The power that operators before an operand ask for. -/
def prefixPower : Nat := 13

/-- The power that calls, members and subscripts ask for. -/
def suffixPower : Nat := 14

namespace Operator

/-- The mark that writes an operator. -/
def mark : Operator → Mark
  | .add | .unaryPlus => .plus
  | .sub | .unaryMinus => .minus
  | .mul => .star
  | .div => .slash
  | .mod => .percent
  | .eq => .eqEq
  | .ne => .ne
  | .lt => .lt
  | .le => .le
  | .gt => .gt
  | .ge => .ge
  | .logicalAnd => .andAnd
  | .logicalOr => .orOr
  | .bitAnd => .and
  | .bitOr => .or
  | .bitXor => .caret
  | .shl => .shl
  | .shr => .shr
  | .bitNot => .tilde
  | .logicalNot => .not
  | .assign => .eq
  | .addAssign => .plusEq
  | .subAssign => .minusEq
  | .mulAssign => .starEq
  | .divAssign => .slashEq
  | .modAssign => .percentEq
  | .call => .lParen

/-- How strongly an operator between operands binds. -/
def power (op : Operator) : Nat :=
  (op.mark.binary?.map (·.1)).getD 0

theorem mark_of_binary? {m : Mark} {power : Nat} {op : Operator} (h : m.binary? = some (power, op)) : op.mark = m := by
  cases m <;> cases h <;> rfl

theorem mark_of_unary? {m : Mark} {op : Operator} (h : m.unary? = some op) : op.mark = m := by
  cases m <;> cases h <;> rfl

end Operator

namespace Form

/-- The power with which a form holds together. -/
def power {α : Type} : Form α → Nat
  | .assign .. => assignmentPower
  | .binary op _ _ => op.power
  | .cast .. => castPower
  | .unary .. => prefixPower
  | .integer n => if n < 0 then prefixPower else suffixPower
  | .floating x => if x.isNegative then prefixPower else suffixPower
  | _ => suffixPower

theorem power_map {α β : Type} (g : α → β) (form : Form α) : (form.map g).power = form.power := by
  cases form <;> rfl

end Form

/-! ## Parts of rows -/

/-- The parts of a text between its dots. -/
def splitAtDots : List Char → List (List Char)
  | [] => [[]]
  | c :: cs =>
    if c = '.' then [] :: splitAtDots cs
    else
      match splitAtDots cs with
      | [] => [[c]]
      | part :: parts => (c :: part) :: parts

namespace Kind

/-- A name of parts divided by dots. -/
def ofDotted (name : String) : List Kind :=
  ((splitAtDots name.toList).map fun part => Kind.ident (String.ofList part)).intersperse (.mark .dot)

def ofType (type : TypeRef) : List Kind :=
  (if type.mutable then [.keyword .mutKw] else []) ++ [.ident type.name]

/-- A type behind a colon, if there is one. -/
def ofAnnotation : Option TypeRef → List Kind
  | none => []
  | some type => .mark .colon :: ofType type

def ofBinder (b : Binder) : List Kind :=
  .ident b.name :: ofAnnotation b.type

def ofImportKind : ImportKind → List Kind
  | .unspecified => []
  | .module => [.keyword .moduleKw]
  | .package => [.keyword .packageKw]

/-- The mode of a parameter; none is written for a copy. -/
def ofMode : PassMode → List Kind
  | .copy => []
  | .ref => [.keyword .refKw]
  | .view => [.keyword .viewKw]

/-- Rows divided by commas. -/
def separated : List (List Kind) → List Kind
  | [] => []
  | [row] => row
  | row :: rows => row ++ .mark .comma :: separated rows

end Kind

/-! ## Rows -/

namespace Form

/-- A child that has been printed: the child itself, and its row in a place that asks for a power. -/
abbrev Printed := Node × (Nat → List Kind)

/-- The row of a child that may be missing. -/
def optional : Option Printed → List Kind
  | none => []
  | some child => child.2 0

/-- The row of a statement of a block; a definition is ended by a semicolon. -/
def ended (child : Printed) : List Kind :=
  child.2 0 ++ if child.1.definesName then [.mark .semicolon] else []

/-- What defines a variable: the keyword, the head, and the initial value. -/
def definition (b : Binder) (init : Option Printed) : List Kind :=
  .keyword (if b.mutable then .varKw else .letKw) :: (Kind.ofBinder b ++
    match init with
    | none => []
    | some value => .mark .eq :: value.2 0)

/-- The head of a definition that stands as a child. -/
def binderOf (child : Printed) : List Kind :=
  match child.1 with
  | ⟨_, .define b _⟩ => Kind.ofBinder b
  | _ => []

/-- The row of a form, from the rows of its children. -/
def row : Form Printed → List Kind
  | .identifier name => [.ident name]
  | .variable name => [.ident name]
  | .define b init => definition b init
  | .defineGlobal b init => definition b init ++ [.mark .semicolon]
  | .cast inner type => inner.2 castPower ++ .keyword .asKw :: Kind.ofType type
  | .call callee args => callee.2 suffixPower ++ .mark .lParen :: (Kind.separated (args.map (·.2 0)) ++ [.mark .rParen])
  | .member object name => object.2 suffixPower ++ [.mark .dot, .ident name]
  | .subscript object index => object.2 suffixPower ++ .mark .lBracket :: (index.2 0 ++ [.mark .rBracket])
  | .slice object first last =>
    object.2 suffixPower ++ .mark .lBracket :: (optional first ++ .mark .colon :: (optional last ++ [.mark .rBracket]))
  | .integer n => (if n < 0 then [.mark .minus] else []) ++ [.integer n.toInt.natAbs]
  | .floating x => if x.isNegative then [.mark .minus, .floating x.neg] else [.floating x]
  | .string value forC => [if forC then .cstring value else .string value]
  | .character code byte => [if byte then .byte code else .character (characterOf code)]
  | .boolean value => [.keyword (if value then .trueKw else .falseKw)]
  | .nothing => [.keyword .noneKw]
  | .unary op operand => .mark op.mark :: operand.2 prefixPower
  | .binary op left right => left.2 op.power ++ .mark op.mark :: right.2 (op.power + 1)
  | .assign op target value => target.2 (assignmentPower + 1) ++ .mark op.mark :: value.2 assignmentPower
  | .empty => [.mark .semicolon]
  | .block stmts => .mark .lBrace :: (stmts.flatMap ended ++ [.mark .rBrace])
  | .expression inner => inner.2 0 ++ [.mark .semicolon]
  | .branch cond yes no =>
    .keyword .ifKw :: (cond.2 0 ++ (yes.2 0 ++
      match no with
      | none => []
      | some no => .keyword .elseKw :: no.2 0))
  | .forLoop init cond step body =>
    .keyword .forKw :: (optional init ++ .mark .semicolon :: (optional cond ++ .mark .semicolon :: (optional step ++ body.2 0)))
  | .whileLoop cond body => .keyword .whileKw :: (cond.2 0 ++ body.2 0)
  | .forEach iterator iteratee body => .keyword .forKw :: (binderOf iterator ++ .keyword .inKw :: (iteratee.2 0 ++ body.2 0))
  | .ret value => .keyword .returnKw :: (optional value ++ [.mark .semicolon])
  | .importUnit target kind isPath =>
    .keyword .importKw :: (Kind.ofImportKind kind ++ ((if isPath then [.string target] else Kind.ofDotted target) ++ [.mark .semicolon]))
  | .nameUnit name => .keyword .moduleKw :: (Kind.ofDotted name ++ [.mark .semicolon])
  | .alias name target => .keyword .typeKw :: .ident name :: .mark .eq :: (Kind.ofType target ++ [.mark .semicolon])
  | .parameter definition mode => Kind.ofMode mode ++ binderOf definition
  | .prototype name returns params inlined =>
    (if inlined then [.keyword .inlineKw] else []) ++ .keyword .defKw :: .ident name :: .mark .lParen ::
      (Kind.separated (params.map (·.2 0)) ++ .mark .rParen :: .mark .colon :: Kind.ofType returns)
  | .function head body _ =>
    head.2 0 ++
      match body with
      | none => [.mark .semicolon]
      | some body => body.2 0

end Form

namespace Node

/-- The row of a tree, in a place that asks for a power. -/
def print : Node → (least : Nat) → List Kind :=
  recurse fun _ form least =>
    if form.power < least then .mark .lParen :: (form.row ++ [.mark .rParen]) else form.row

/-- The row of a tree without parentheses around it. -/
def row (n : Node) : List Kind :=
  (n.form.map fun child => (child, child.print)).row

theorem print_eq (n : Node) (least : Nat) :
    n.print least = if n.form.power < least then .mark .lParen :: (n.row ++ [.mark .rParen]) else n.row := by
  obtain ⟨loc, form⟩ := n
  rw [print, recurse_mk, Form.power_map]
  rfl

/-- The row of the items of a source. -/
def printUnit (n : Node) : List Kind :=
  n.items.flatMap (print · 0)

end Node

/-! ## Trees without locations -/

def TypeRef.bare (type : TypeRef) : TypeRef :=
  { type with loc := .start }

def Binder.bare (b : Binder) : Binder :=
  { b with type := b.type.map TypeRef.bare }

namespace Form

/-- The form with all written types at the start of the source. -/
def bare {α : Type} : Form α → Form α
  | .define b init => .define b.bare init
  | .defineGlobal b init => .defineGlobal b.bare init
  | .cast inner type => .cast inner type.bare
  | .alias name target => .alias name target.bare
  | .prototype name returns params inlined => .prototype name returns.bare params inlined
  | form => form

end Form

namespace Node

/-- The tree with all its nodes and written types at the start of the source. -/
def bare : Node → Node :=
  recurse fun _ form => ⟨.start, (form.map (·.2)).bare⟩

theorem bare_mk (loc : Loc) (form : Form Node) : bare ⟨loc, form⟩ = ⟨.start, (form.map bare).bare⟩ := by
  rw [bare, recurse_mk, Form.map_map]
  rfl

/-- The trees are the same, except for locations. -/
def Like (n m : Node) : Prop :=
  n.bare = m.bare

end Node

end Ember
