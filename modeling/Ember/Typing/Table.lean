import Ember.Fault
import Ember.Typing.Kind

/-!
# The type table

Every type of a compilation has one entry, found by its decorated name: its name, behind `mut` if values of the type may be
changed. A type is referred to by the position of its entry, so two types are the same if and only if their positions are.
-/

namespace Ember

/-- The position of a type in the table. -/
abbrev TypeId := Nat

/-- Result and parameters of a function type. -/
structure Signature where
  ret : TypeId
  params : List (TypeId × PassMode)
deriving DecidableEq, Repr

/-- What a type is made of. -/
inductive Shape where
  | primitive (p : Primitive)
  | function (signature : Signature)
  | alias (target : TypeId)
deriving DecidableEq, Repr

def Shape.kind : Shape → TypeKind
  | .primitive p => .primitive p
  | .function _ => .function
  | .alias _ => .alias

/-- An entry of the table. -/
structure TypeEntry where
  name : String
  mutable : Bool
  shape : Shape
  /-- How values are represented. -/
  ir : IR.Ty
  debug : Option DebugType := none
deriving DecidableEq, Repr

namespace TypeEntry

instance : Inhabited TypeEntry := ⟨{ name := "void", mutable := false, shape := .primitive .void, ir := .void }⟩

/-- A name behind `mut` if it is mutable. -/
def decorate (mutable : Bool) (name : String) : String :=
  if mutable then "mut " ++ name else name

/-- The name by which the entry is found. -/
def decorated (e : TypeEntry) : String :=
  decorate e.mutable e.name

def signature? (e : TypeEntry) : Option Signature :=
  match e.shape with
  | .function signature => some signature
  | _ => none

def aliasOf? (e : TypeEntry) : Option TypeId :=
  match e.shape with
  | .alias target => some target
  | _ => none

end TypeEntry

/-- The types of a compilation. -/
structure TypeTable where
  entries : List TypeEntry
  /-- Whether entries carry records for a debugger. -/
  debugInfo : Bool
deriving DecidableEq, Repr

namespace TypeTable

/-- The entry of a type. -/
def entry (t : TypeTable) (id : TypeId) : TypeEntry :=
  t.entries[id]?.getD default

/-- The type of a decorated name. -/
def lookup? (t : TypeTable) (decorated : String) : Option TypeId :=
  t.entries.findIdx? (·.decorated == decorated)

/-- The type of an entry, which is added if its decorated name is new. -/
def insert (t : TypeTable) (e : TypeEntry) : TypeId × TypeTable :=
  match t.lookup? e.decorated with
  | some id => (id, t)
  | none => (t.entries.length, { t with entries := t.entries ++ [e] })

/-- The two entries of a primitive type: the plain one, then the mutable one. -/
def primitiveEntries (debugInfo : Bool) (p : Primitive) : List TypeEntry :=
  [false, true].map fun mutable =>
    { name := p.name, mutable, shape := .primitive p, ir := p.ir, debug := if debugInfo then p.debug? else none }

/-- The table of the primitive types. -/
def initial (debugInfo : Bool) : TypeTable :=
  { entries := Primitive.all.flatMap (primitiveEntries debugInfo), debugInfo }

/-- The plain type of a primitive. -/
def primitive (p : Primitive) : TypeId :=
  2 * Primitive.all.idxOf p

/-- Which of the two entries of a name is asked for. -/
inductive Search where
  | plain | mutable
  /-- The plain one if there is one, else the mutable one. -/
  | either
deriving DecidableEq, Repr

/-- The type of a name. -/
def find? (t : TypeTable) (name : String) : Search → Option TypeId
  | .plain => t.lookup? name
  | .mutable => t.lookup? (TypeEntry.decorate true name)
  | .either => t.lookup? name <|> t.lookup? (TypeEntry.decorate true name)

/-- The type of a decorated name, which must be there. -/
def get (t : TypeTable) (decorated : String) : Except Fault TypeId :=
  match t.lookup? decorated with
  | some id => .ok id
  | none => .error (.unknownType decorated .unknown)

/-- The number of entries of a name, whether mutable or not. -/
def count (t : TypeTable) (name : String) : Nat :=
  t.entries.countP (·.name == name)

/-- The mutable type of the same name. -/
def mutableOf (t : TypeTable) (id : TypeId) : TypeId × TypeTable :=
  let e := t.entry id
  if e.mutable then (id, t) else t.insert { e with mutable := true }

/-- The plain type of the same name. -/
def immutableOf (t : TypeTable) (id : TypeId) : TypeId × TypeTable :=
  let e := t.entry id
  if e.mutable then t.insert { e with mutable := false } else (id, t)

/-- The type that a source writes. -/
def resolve (t : TypeTable) (written : TypeRef) : Except Fault (TypeId × TypeTable) :=
  match t.lookup? written.name with
  | none => .error (.unknownType written.name written.loc)
  | some id => .ok (if written.mutable then t.mutableOf id else (id, t))

/-- The plain type of the same name, if it is in the table. -/
def unqualified (t : TypeTable) (id : TypeId) : TypeId :=
  let e := t.entry id
  if e.mutable then (t.lookup? e.name).getD id else id

/-- Follows at most `fuel` aliases. -/
def follow (t : TypeTable) : (fuel : Nat) → TypeId → TypeId
  | 0, id => id
  | fuel + 1, id =>
    match (t.entry id).aliasOf? with
    | some target => follow t fuel target
    | none => id

/-- The type that an alias stands for in the end. An alias comes after its target, so the chain is no longer than the
table. -/
def resolveAlias (t : TypeTable) (id : TypeId) : TypeId :=
  t.follow t.entries.length id

/-- The kind of a type, aliases resolved. -/
def kind (t : TypeTable) (id : TypeId) : TypeKind :=
  (t.entry (t.resolveAlias id)).shape.kind

/-- The representation of values of a type. -/
def ir (t : TypeTable) (id : TypeId) : IR.Ty :=
  (t.entry id).ir

/-- The decorated name of a type. -/
def nameOf (t : TypeTable) (id : TypeId) : String :=
  (t.entry id).decorated

/-- What is left of a type without mutability and aliases. -/
def core (t : TypeTable) (id : TypeId) : TypeId :=
  t.unqualified (t.resolveAlias (t.unqualified id))

/-- Whether two types differ at most in mutability and aliases. -/
def alike (t : TypeTable) (a b : TypeId) : Bool :=
  t.core a == t.core b

def isSized (t : TypeTable) (id : TypeId) : Bool :=
  (t.kind id).isSized

def isVoid (t : TypeTable) (id : TypeId) : Bool :=
  (t.kind id).isVoid

/-- How a parameter travels: by its address if it is a `ref`. -/
def parameterIR (t : TypeTable) (id : TypeId) : PassMode → IR.Ty
  | .ref => .ptr
  | .copy | .view => t.ir id

/-- A parameter in the name of a function type. -/
def parameterName (t : TypeTable) : TypeId × PassMode → String
  | (id, .copy) => t.nameOf id
  | (id, mode) => mode.text ++ " " ++ t.nameOf id

/-- The name of a function type. -/
def functionName (t : TypeTable) (s : Signature) : String :=
  "def(" ++ ", ".intercalate (s.params.map t.parameterName) ++ "): " ++ t.nameOf s.ret

/-- The function type of a signature. -/
def function (t : TypeTable) (s : Signature) : TypeId × TypeTable :=
  t.insert {
    name := t.functionName s
    mutable := false
    shape := .function s
    ir := .function (s.params.map fun (id, mode) => t.parameterIR id mode) (t.ir s.ret) }

/-- Gives a type another name, which must be new. The alias of a mutable type stands for the plain one, and both the alias
and its mutable form are entered. -/
def addAlias (t : TypeTable) (name : String) (target : TypeId) (loc : Loc) : Except Fault (TypeId × TypeTable) :=
  if 0 < t.count name then .error (.redefined name loc)
  else
    let target := t.unqualified target
    let under := t.entry target
    let (id, t) := t.insert { name, mutable := false, shape := .alias target, ir := under.ir, debug := under.debug }
    let (mutableTarget, t) := t.mutableOf target
    let (_, t) := t.insert { t.entry id with mutable := true, shape := .alias mutableTarget }
    .ok (id, t)

/-- The code of a type in a symbol. Every type of a signature comes before the function type, so `fuel` of the size of the
table suffices. -/
def codeWithin (t : TypeTable) : (fuel : Nat) → TypeId → String
  | 0, _ => ""
  | fuel + 1, id =>
    let e := t.entry id
    let mark := if e.mutable then "M" else ""
    match e.shape with
    | .alias target => mark ++ codeWithin t fuel (t.unqualified target)
    | .function s =>
      let params := s.params.map fun (param, mode) =>
        (if mode = .ref then "R" else "") ++ codeWithin t fuel param
      mark ++ "F" ++ codeWithin t fuel s.ret ++ String.join params ++ "E"
    | .primitive p => mark ++ p.code

/-- The code of a type in a symbol. -/
def code (t : TypeTable) (id : TypeId) : String :=
  t.codeWithin (t.entries.length + 1) id

/-- The symbol of a function: the size of its name in bytes, the name, the code of its type. -/
def symbolOf (t : TypeTable) (name : String) (type : TypeId) : String :=
  "_E" ++ toString name.utf8ByteSize ++ name ++ t.code type

end TypeTable

end Ember
