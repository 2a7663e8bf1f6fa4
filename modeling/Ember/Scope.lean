import Ember.Typing.Operand

/-!
# Scopes

Names and what they stand for, in scopes inside one another. A name stands for its innermost meaning, and may be given one
meaning in a scope.
-/

namespace Ember

/-- What a name stands for: the place of a variable, or a function. -/
structure Symbol where
  name : String
  operand : Operand
  loc : Loc
  isFunction : Bool
deriving DecidableEq, Repr

/-- A scope, the last name first. -/
abbrev Scope := List Symbol

/-- Scopes inside one another, the innermost first. -/
abbrev Scopes := List Scope

namespace Scopes

/-- The global scope alone. -/
def initial : Scopes := [[]]

/-- Opens a scope. -/
def enter (s : Scopes) : Scopes :=
  [] :: s

/-- Closes the innermost scope. -/
def leave (s : Scopes) : Scopes :=
  s.tail

/-- The meaning of a name in one scope. -/
def meaning? (name : String) (scope : Scope) : Option Symbol :=
  scope.find? (·.name == name)

/-- The innermost meaning of a name. -/
def find? (s : Scopes) (name : String) : Option Symbol :=
  s.findSome? (meaning? name)

/-- Gives a name a meaning in the innermost scope, where it must be new. -/
def bind (s : Scopes) (symbol : Symbol) : Except Fault Scopes :=
  match s with
  | [] => .error (.breach .noScope)
  | scope :: outer =>
    if (meaning? symbol.name scope).isSome then .error (.redefined symbol.name symbol.loc)
    else .ok ((symbol :: scope) :: outer)

end Scopes

end Ember
