import Ember.Tree.Parse.Cursor

/-!
# Parsing expressions

Operators bind by power: a loop after each operand takes the operators that bind at least as strongly as asked for.
Assignments group to the right, all other operators to the left, and a cast binds tighter than any of them. Every function
calls the others with less fuel, and the fuel is chosen from the number of tokens, of which a few calls use up at least one.
-/

namespace Ember

/-- The operator of a mark between two operands, and how strongly it binds. -/
def Mark.binary? : Mark → Option (Nat × Operator)
  | .eq => some (1, .assign)
  | .plusEq => some (1, .addAssign)
  | .minusEq => some (1, .subAssign)
  | .starEq => some (1, .mulAssign)
  | .slashEq => some (1, .divAssign)
  | .percentEq => some (1, .modAssign)
  | .orOr => some (2, .logicalOr)
  | .andAnd => some (3, .logicalAnd)
  | .or => some (4, .bitOr)
  | .caret => some (5, .bitXor)
  | .and => some (6, .bitAnd)
  | .eqEq => some (7, .eq)
  | .ne => some (7, .ne)
  | .lt => some (8, .lt)
  | .le => some (8, .le)
  | .gt => some (8, .gt)
  | .ge => some (8, .ge)
  | .shl => some (9, .shl)
  | .shr => some (9, .shr)
  | .plus => some (10, .add)
  | .minus => some (10, .sub)
  | .star => some (11, .mul)
  | .slash => some (11, .div)
  | .percent => some (11, .mod)
  | _ => none

/-- How strongly a cast binds. -/
def castPower : Nat := 12

/-- How strongly assignments bind; nothing binds less. -/
def assignmentPower : Nat := 1

/-- The operator of a mark before its operand. -/
def Mark.unary? : Mark → Option Operator
  | .plus => some .unaryPlus
  | .minus => some .unaryMinus
  | .not => some .logicalNot
  | .tilde => some .bitNot
  | _ => none

namespace Parser

variable {σ ν : Type} [NodeStore σ ν]

/-- A plain name that is assigned to or called stands for the variable, not for its value. -/
def asTarget (n : ν) : Parser σ ν := do
  match ← formOf n with
  | .variable name => change n none (.identifier name)
  | _ => return n

/-- An operator before its operand. A minus before a literal becomes part of the literal, which then starts at the minus. -/
def prefixed (loc : Loc) (op : Operator) (operand : ν) : Parser σ ν := do
  match op, ← formOf operand with
  | .unaryMinus, .integer n => change operand (some loc) (.integer (-n))
  | .unaryMinus, .floating x => change operand (some loc) (.floating x.neg)
  | _, _ => make loc (.unary op operand)

mutual

/-- An expression whose operators bind at least as strongly as `least`. -/
def expr (fuel least : Nat) : Parser σ ν :=
  match fuel with
  | 0 => fail .expression
  | fuel + 1 => do
    let left ← unary fuel
    operators fuel least left

/-- Takes the operators that follow an operand. -/
def operators (fuel least : Nat) (left : ν) : Parser σ ν :=
  match fuel with
  | 0 => fail .expression
  | fuel + 1 => do
    let t ← current
    match t.kind with
    | .keyword .asKw =>
      if castPower < least then return left
      let _ ← advance
      let type ← typeRef
      operators fuel least (← make t.loc (.cast left type))
    | .mark m =>
      match m.binary? with
      | none => return left
      | some (power, op) =>
        if power < least then return left
        let _ ← advance
        if power = assignmentPower then
          let value ← expr fuel power
          let target ← asTarget left
          operators fuel least (← make t.loc (.assign op target value))
        else
          let right ← expr fuel (power + 1)
          operators fuel least (← make t.loc (.binary op left right))
    | _ => return left

/-- An operand with the operators before it. The least integer is read as one literal, since its positive counterpart is
too large. -/
def unary (fuel : Nat) : Parser σ ν :=
  match fuel with
  | 0 => fail .expression
  | fuel + 1 => do
    let t ← current
    match t.kind with
    | .mark m =>
      match m.unary? with
      | none => suffixed fuel
      | some op =>
        let _ ← advance
        if op = .unaryMinus && (← at? (.integer 0x8000000000000000)) then
          let _ ← advance
          make t.loc (.integer Int64.minValue)
        else
          let operand ← unary fuel
          prefixed t.loc op operand
    | _ => suffixed fuel

/-- An operand with the calls, members and subscripts behind it. -/
def suffixed (fuel : Nat) : Parser σ ν :=
  match fuel with
  | 0 => fail .expression
  | fuel + 1 => do
    let operand ← primary fuel
    suffixes fuel operand

/-- Takes the calls, members and subscripts that follow an operand. -/
def suffixes (fuel : Nat) (operand : ν) : Parser σ ν :=
  match fuel with
  | 0 => fail .expression
  | fuel + 1 => do
    let loc ← here
    if ← consume (.mark .lParen) then
      let args ← arguments fuel
      let _ ← expect (.mark .rParen)
      let callee ← asTarget operand
      suffixes fuel (← make loc (.call callee args))
    else if ← consume (.mark .dot) then
      let name ← identifier .identifier
      suffixes fuel (← make loc (.member operand name))
    else if ← consume (.mark .lBracket) then
      let first ← if ← at? (.mark .colon) then pure none else some <$> expr fuel 0
      if ← consume (.mark .colon) then
        let last ← if ← at? (.mark .rBracket) then pure none else some <$> expr fuel 0
        let _ ← expect (.mark .rBracket)
        suffixes fuel (← make loc (.slice operand first last))
      else
        match first with
        | none => fail .indexExpression
        | some index =>
          let _ ← expect (.mark .rBracket)
          suffixes fuel (← make loc (.subscript operand index))
    else return operand

/-- Arguments up to a closing parenthesis; a comma may stand behind the last one. -/
def arguments (fuel : Nat) : Parser σ (List ν) :=
  match fuel with
  | 0 => fail .expression
  | fuel + 1 => do
    if (← at? (.mark .rParen)) || (← atEnd) then return []
    let arg ← expr fuel 0
    if ← consume (.mark .comma) then return arg :: (← arguments fuel)
    return [arg]

/-- A literal, a name, or an expression in parentheses. -/
def primary (fuel : Nat) : Parser σ ν :=
  match fuel with
  | 0 => fail .expression
  | fuel + 1 => do
    let t ← current
    let leaf (form : Form ν) : Parser σ ν := do
      let _ ← advance
      make t.loc form
    match t.kind with
    | .integer n => if n < 0x8000000000000000 then leaf (.integer (Int64.ofNat n)) else outOfRange (toString n)
    | .oversized digits => outOfRange digits
    | .floating x => leaf (.floating x)
    | .string s => leaf (.string s false)
    | .cstring s => leaf (.string s true)
    | .character c => leaf (.character c.toNat false)
    | .byte b => leaf (.character b true)
    | .keyword .trueKw => leaf (.boolean true)
    | .keyword .falseKw => leaf (.boolean false)
    | .keyword .noneKw => leaf .nothing
    | .ident name => leaf (.variable name)
    | .mark .lParen =>
      let _ ← advance
      let inner ← expr fuel 0
      let _ ← expect (.mark .rParen)
      return inner
    | _ => fail .expression

end

end Parser

end Ember
