import Ember.Number.Text
import Ember.Text.Quoted
import Ember.Tree.Node

/-!
# Listings of trees

A tree as text: one line for each node, in pre-order, indented by its depth.
-/

namespace Ember

/-- The character with a code; codes that no character has show as the replacement character. -/
def characterOf (code : Nat) : Char :=
  if h : code.isValidChar then Char.ofNatAux code h else '�'

namespace Form

/-- What a line says about a node besides its form. -/
def details {α : Type} : Form α → String
  | .identifier name => name
  | .variable name => name
  | .define b _ => binder b
  | .defineGlobal b _ => binder b
  | .cast _ type => "as " ++ type.text
  | .member _ name => "." ++ name
  | .integer n => toString n.toInt
  | .floating x => x.text
  | .string value forC => (if forC then "c" else "") ++ Text.quoted value
  | .character code byte => (if byte then "b" else "") ++ Text.quotedChar (characterOf code)
  | .boolean value => toString value
  | .unary op _ => op.symbol
  | .binary op _ _ => op.symbol
  | .assign op _ _ => op.symbol
  | .importUnit target kind isPath =>
    (match kind with
      | .unspecified => ""
      | .module => "module "
      | .package => "package ") ++ (if isPath then Text.quoted target else target)
  | .nameUnit name => name
  | .alias name target => name ++ " = " ++ target.text
  | .parameter _ mode => mode.text
  | .prototype name returns _ inlined => name ++ ": " ++ returns.text ++ (if inlined then " inline" else "")
  | .function _ _ true => "declaration"
  | _ => ""
where
  /-- A variable with its type and how it was declared. -/
  binder (b : Binder) : String :=
    b.name ++ (match b.type with
      | some type => ": " ++ type.text
      | none => "") ++ (if b.inferred then " inferred" else "") ++ (if b.mutable then " mut" else "")

/-- One line: the form, its details, its location. -/
def line {α : Type} (form : Form α) (loc : Loc) (depth : Nat) : String :=
  let details := form.details
  String.ofList (List.replicate (2 * depth) ' ') ++ form.name ++ (if details.isEmpty then "" else " " ++ details) ++
    " @" ++ loc.text ++ "\n"

end Form

namespace Node

/-- The lines of a tree whose root stands at a depth. -/
def lines : Node → (depth : Nat) → List String :=
  recurse fun loc form depth => form.line loc depth :: form.children.flatMap fun child => child.2 (depth + 1)

/-- The listing of a tree. -/
def listing (n : Node) : String :=
  String.join (n.lines 0)

end Node

end Ember
