import Ember.Tree.Parse.Expr

/-!
# Parsing statements and items

Statements, functions, variables, imports, and the whole of a source.
-/

namespace Ember

namespace Parser

variable {σ ν : Type} [NodeStore σ ν]

/-- A whole expression. -/
def expression (fuel : Nat) : Parser σ ν :=
  expr fuel 0

/-- A name of parts divided by dots; `parts` bounds their number. -/
def dottedName : (parts : Nat) → Parser σ String
  | 0 => identifier .identifier
  | parts + 1 => do
    let name ← identifier .identifier
    if ← consume (.mark .dot) then return name ++ "." ++ (← dottedName parts)
    return name

/-- A variable definition without its semicolon: `let` or `var`, a name, perhaps a type, perhaps an initial value. -/
def definition (fuel : Nat) (global : Bool) : Parser σ ν := do
  let keyword ← advance
  let marked ← consume (.keyword .mutKw)
  let name ← identifier .identifier
  let type ← typeAnnotation?
  let init ← if ← consume (.mark .eq) then some <$> expression fuel else pure none
  let isVar : Bool := keyword.kind = .keyword .varKw
  let binder : Binder :=
    { name, type, inferred := type.isNone, mutable := isVar || marked || (type.any (·.mutable)) }
  make keyword.loc (if global then .defineGlobal binder init else .define binder init)

/-- A variable definition. -/
def definitionStatement (fuel : Nat) (global : Bool) : Parser σ ν := do
  let node ← definition fuel global
  let _ ← expect (.mark .semicolon)
  return node

/-- An optional part, absent if the next token is of a kind. -/
def absentAt {α : Type} (k : Kind) (part : Parser σ α) : Parser σ (Option α) := do
  if ← at? k then return none else return some (← part)

/-- A return statement. -/
def returnStatement (fuel : Nat) : Parser σ ν := do
  let loc := (← expect (.keyword .returnKw)).loc
  let value ← absentAt (.mark .semicolon) (expression fuel)
  let _ ← expect (.mark .semicolon)
  make loc (.ret value)

/-- The first part of a loop header: a definition or an expression. -/
def loopInit (fuel : Nat) : Parser σ ν := do
  match (← current).kind with
  | .keyword .letKw | .keyword .varKw => definition fuel false
  | _ => expression fuel

/-- Whether a loop over the members of something starts here. -/
def atForEach : Parser σ Bool := do
  match (← current).kind, ← second? with
  | .ident _, some (.keyword .inKw) => return true
  | _, _ => return false

mutual

/-- A block. -/
def block (fuel : Nat) : Parser σ ν :=
  match fuel with
  | 0 => fail (.token (.mark .lBrace))
  | fuel + 1 => do
    let loc := (← expect (.mark .lBrace)).loc
    let stmts ← statements fuel
    let _ ← expect (.mark .rBrace)
    make loc (.block stmts)

/-- Statements up to a closing brace. -/
def statements (fuel : Nat) : Parser σ (List ν) :=
  match fuel with
  | 0 => fail (.token (.mark .rBrace))
  | fuel + 1 => do
    if (← at? (.mark .rBrace)) || (← atEnd) then return []
    let stmt ← statement fuel
    return stmt :: (← statements fuel)

/-- One statement. -/
def statement (fuel : Nat) : Parser σ ν :=
  match fuel with
  | 0 => fail .expression
  | fuel + 1 => do
    let t ← current
    match t.kind with
    | .keyword .letKw | .keyword .varKw => definitionStatement fuel false
    | .keyword .ifKw => branch fuel
    | .keyword .whileKw => whileStatement fuel
    | .keyword .forKw => forStatement fuel
    | .keyword .returnKw => returnStatement fuel
    | .mark .lBrace => block fuel
    | .mark .semicolon =>
      let _ ← advance
      make t.loc .empty
    | _ =>
      let e ← expression fuel
      let _ ← expect (.mark .semicolon)
      make t.loc (.expression e)

/-- A conditional; `else` is followed by a block or by another conditional. -/
def branch (fuel : Nat) : Parser σ ν :=
  match fuel with
  | 0 => fail .expression
  | fuel + 1 => do
    let loc := (← expect (.keyword .ifKw)).loc
    let cond ← expression fuel
    let yes ← block fuel
    if ← consume (.keyword .elseKw) then
      let no ← if ← at? (.keyword .ifKw) then branch fuel else block fuel
      make loc (.branch cond yes (some no))
    else make loc (.branch cond yes none)

/-- A loop with a condition. -/
def whileStatement (fuel : Nat) : Parser σ ν :=
  match fuel with
  | 0 => fail .expression
  | fuel + 1 => do
    let loc := (← expect (.keyword .whileKw)).loc
    let cond ← expression fuel
    let body ← block fuel
    make loc (.whileLoop cond body)

/-- A loop over members, or a loop with three parts in its header, each of which may be missing. -/
def forStatement (fuel : Nat) : Parser σ ν :=
  match fuel with
  | 0 => fail .expression
  | fuel + 1 => do
    let loc := (← expect (.keyword .forKw)).loc
    if ← atForEach then
      let nameLoc ← here
      let name ← identifier .identifier
      let _ ← expect (.keyword .inKw)
      let iterator ← make nameLoc (.define { name, type := none, inferred := true, mutable := false } none)
      let iteratee ← expression fuel
      let body ← block fuel
      make loc (.forEach iterator iteratee body)
    else
      let init ← absentAt (.mark .semicolon) (loopInit fuel)
      let _ ← expect (.mark .semicolon)
      let cond ← absentAt (.mark .semicolon) (expression fuel)
      let _ ← expect (.mark .semicolon)
      let step ← absentAt (.mark .lBrace) (expression fuel)
      let body ← block fuel
      make loc (.forLoop init cond step body)

end

/-- The pass mode before a parameter; a copy is passed if none is written. -/
def passMode : Parser σ PassMode := do
  match (← current).kind with
  | .keyword .copyKw =>
    let _ ← advance
    return .copy
  | .keyword .refKw =>
    let _ ← advance
    return .ref
  | .keyword .viewKw =>
    let _ ← advance
    return .view
  | _ => return .copy

/-- A parameter. A missing type is left for the shape check to report. -/
def parameter : Parser σ ν := do
  let loc ← here
  let mode ← passMode
  let nameLoc ← here
  let name ← identifier .identifier
  let type ← typeAnnotation?
  let mutable := mode = .ref || type.any (·.mutable)
  let definition ← make nameLoc (.define { name, type, inferred := type.isNone, mutable } none)
  make loc (.parameter definition mode)

/-- Parameters up to a closing parenthesis; a comma may stand behind the last one. -/
def parameters : (fuel : Nat) → Parser σ (List ν)
  | 0 => fail (.token (.mark .rParen))
  | fuel + 1 => do
    if (← at? (.mark .rParen)) || (← atEnd) then return []
    let p ← parameter
    if ← consume (.mark .comma) then return p :: (← parameters fuel)
    return [p]

/-- A function: a prototype, then a semicolon or a body. Without a return type it returns nothing. -/
def function (fuel : Nat) : Parser σ ν := do
  let loc ← here
  let inlined ← consume (.keyword .inlineKw)
  let _ ← expect (.keyword .defKw)
  let name ← identifier .identifier
  let _ ← expect (.mark .lParen)
  let params ← parameters fuel
  let _ ← expect (.mark .rParen)
  let returns ← do
    match ← typeAnnotation? with
    | some type => pure type
    | none => pure { name := "void", mutable := false, loc := ← here }
  let head ← make loc (.prototype name returns params inlined)
  if ← consume (.mark .semicolon) then make loc (.function head none true)
  else
    let body ← block fuel
    make loc (.function head (some body) false)

/-- The name of the module. -/
def nameItem (fuel : Nat) : Parser σ ν := do
  let loc := (← expect (.keyword .moduleKw)).loc
  let name ← dottedName fuel
  let _ ← expect (.mark .semicolon)
  make loc (.nameUnit name)

/-- An import of a path or of a dotted name. -/
def importItem (fuel : Nat) : Parser σ ν := do
  let loc := (← expect (.keyword .importKw)).loc
  let kind ← do
    if ← consume (.keyword .moduleKw) then pure ImportKind.module
    else if ← consume (.keyword .packageKw) then pure ImportKind.package
    else pure ImportKind.unspecified
  let (target, isPath) ← do
    match (← current).kind with
    | .string path =>
      let _ ← advance
      pure (path, true)
    | _ => pure (← dottedName fuel, false)
  let _ ← expect (.mark .semicolon)
  make loc (.importUnit target kind isPath)

/-- Another name for a type. -/
def aliasItem : Parser σ ν := do
  let loc := (← expect (.keyword .typeKw)).loc
  let name ← identifier .identifier
  let _ ← expect (.mark .eq)
  let target ← typeRef
  let _ ← expect (.mark .semicolon)
  make loc (.alias name target)

/-- One item of a source. -/
def item (fuel : Nat) : Parser σ ν := do
  let t ← current
  match t.kind with
  | .keyword .defKw | .keyword .inlineKw => function fuel
  | .keyword .letKw | .keyword .varKw => definitionStatement fuel true
  | .keyword .importKw => importItem fuel
  | .keyword .moduleKw => nameItem fuel
  | .keyword .typeKw => aliasItem
  | .mark .semicolon =>
    let _ ← advance
    make t.loc .empty
  | _ => fail .item

/-- Items up to the end of the file; `count` bounds their number. -/
def itemList (fuel : Nat) : (count : Nat) → Parser σ (List ν)
  | 0 => fail .item
  | count + 1 => do
    if ← atEnd then return []
    let i ← item fuel
    return i :: (← itemList fuel count)

end Parser

/-- The items of a row of tokens, and the store with their nodes. Between two uses of a token there are fewer than eight calls, so
the fuel suffices for every row. -/
def NodeStore.itemsOf {σ ν : Type} [NodeStore σ ν] (store : σ) (tokens : List Token) : Except Fault (List ν × σ) := do
  let fuel := 8 * (tokens.length + 1)
  let (items, rest) ← (Parser.itemList fuel fuel).run { tokens, store }
  return (items, rest.store)

namespace Node

/-- The tree of a row of tokens: a block of items at the start of the source. -/
def ofTokens (tokens : List Token) : Except Fault Node := do
  let (items, _) ← NodeStore.itemsOf () tokens
  return ⟨.start, .block items⟩

/-- The tree of a source. -/
def parse (source : String) : Except Fault Node :=
  ofTokens (Token.scan source)

end Node

end Ember
