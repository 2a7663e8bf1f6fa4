import Ember.Fault
import Ember.Token.Scan
import Ember.Tree.Store

/-!
# Reading tokens

A parser reads a row of tokens that ends with the end of the file, and either fails or leaves the tokens it did not use. The
last token is never used up, so to find no token at all is a fault of the compiler.
-/

namespace Ember

/-- What a parser works on: the tokens ahead, and the nodes that were made. -/
structure Reading (σ : Type) where
  tokens : List Token
  store : σ

/-- Parsers: from the tokens ahead to a result and the tokens that remain. -/
abbrev Parser (σ : Type) := StateT (Reading σ) (Except Fault)

namespace Parser

variable {σ ν : Type}

/-- The next token. -/
def current : Parser σ Token := do
  match (← get).tokens with
  | t :: _ => return t
  | [] => throw (.breach .noToken)

/-- The location of the next token. -/
def here : Parser σ Loc :=
  return (← current).loc

/-- Reads the next token; the last one stays. -/
def advance : Parser σ Token := do
  match (← get).tokens with
  | t :: u :: rest =>
    modify fun r => { r with tokens := u :: rest }
    return t
  | [t] => return t
  | [] => throw (.breach .noToken)

/-- The token after the next one. -/
def second? : Parser σ (Option Kind) := do
  match (← get).tokens with
  | _ :: u :: _ => return some u.kind
  | _ => return none

/-- Whether the next token is of a kind. -/
def at? (k : Kind) : Parser σ Bool :=
  return (← current).kind = k

/-- Whether only the end of the file is ahead. -/
def atEnd : Parser σ Bool :=
  at? .endOfFile

/-- Fails at the next token. -/
def fail {α : Type} (expected : Expectation) : Parser σ α := do
  let t ← current
  throw (.unexpected expected (.token t.kind) t.loc)

/-- Fails at the next token, an integer literal that is too large. -/
def outOfRange {α : Type} (digits : String) : Parser σ α := do
  throw (.unexpected .integerInRange (.digits digits) (← here))

/-- Reads a token of a kind, or fails. -/
def expect (k : Kind) : Parser σ Token := do
  if ← at? k then advance else fail (.token k)

/-- Reads a token of a kind, if it is the next one. -/
def consume (k : Kind) : Parser σ Bool := do
  if ← at? k then
    let _ ← advance
    return true
  else return false

/-- Reads a name, or fails with what was expected in its place. -/
def identifier (expected : Expectation) : Parser σ String := do
  match (← current).kind with
  | .ident name =>
    let _ ← advance
    return name
  | _ => fail expected

/-- Reads a type: a name, perhaps behind `mut`. -/
def typeRef : Parser σ TypeRef := do
  let loc ← here
  let mutable ← consume (.keyword .mutKw)
  let name ← identifier .type
  return { name, mutable, loc }

/-- Reads a type behind a colon, if there is one. -/
def typeAnnotation? : Parser σ (Option TypeRef) := do
  if ← consume (.mark .colon) then return some (← typeRef) else return none

variable [NodeStore σ ν]

/-- Makes a node. -/
def make (loc : Loc) (form : Form ν) : Parser σ ν :=
  modifyGet fun r =>
    let (n, store) := NodeStore.add r.store loc form
    (n, { r with store })

/-- The form of a node that was made. -/
def formOf (n : ν) : Parser σ (Form ν) :=
  return NodeStore.form (← get).store n

/-- Gives a node that was made another form. -/
def change (n : ν) (loc : Option Loc) (form : Form ν) : Parser σ ν :=
  modifyGet fun r =>
    let (n, store) := NodeStore.change r.store n loc form
    (n, { r with store })

end Parser

end Ember
