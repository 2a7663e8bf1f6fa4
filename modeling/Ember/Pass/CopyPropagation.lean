import Ember.Pass.Change
import Std.Data.TreeMap

/-!
# Copy propagation

A register that only holds a copy is replaced by what it copies. A phi whose edges all bring the same value is a copy too.
Copies of copies are resolved to the end of their chain; copies that go round in a circle are left alone.
-/

namespace Ember.IR

/-- What a copying instruction copies, and to where. -/
def Instruction.copy? : Instruction → Option (Register × Value)
  | .assign dest value => if value = .register dest then none else some (dest, value)
  | .phi dest _ incoming =>
    match (incoming.map (·.1)).filter (· ≠ .register dest) with
    | [] => none
    | first :: rest => if rest.all (·.like first) then some (dest, first) else none
  | _ => none

/-- Copies by their destinations. -/
abbrev Copies := Std.TreeMap Register Value

namespace Copies

/-- The copies of a function; of two with the same destination the last counts. -/
def ofFunction (f : Function) : Copies :=
  (f.instructions.filterMap (·.copy?)).foldl (fun copies (dest, value) => copies.insert dest value) ∅

/-- The copy of a value that is a register. -/
def next? (copies : Copies) (v : Value) : Option (Register × Value) := do
  let r ← v.register?
  return (r, ← copies[r]?)

/-- Follows a chain of copies, at most `fuel` of them, up to a value that is no copy or a register seen before. -/
def follow (copies : Copies) : (fuel : Nat) → (seen : List Register) → Value → List Register × Value
  | 0, seen, v => (seen, v)
  | fuel + 1, seen, v =>
    match copies.next? v with
    | none => (seen, v)
    | some (r, next) => if seen.contains r then (seen, v) else follow copies fuel (r :: seen) next

/-- Replaces a copy by the end of its chain, or drops it if the chain comes round to itself. -/
def resolve (copies : Copies) (r : Register) : Copies :=
  match copies[r]? with
  | none => copies
  | some v =>
    let (seen, last) := copies.follow (copies.size + 1) [r] v
    if last.register?.any seen.contains then copies.erase r else copies.insert r last

/-- Resolves the copies of some registers, in their order. -/
def resolveAll (copies : Copies) (order : List Register) : Copies :=
  order.foldl resolve copies

end Copies

/-- The resolved copies of a function. -/
def Function.copies (f : Function) : Copies :=
  let copies := Copies.ofFunction f
  copies.resolveAll copies.keys

/-- Replaces copies by what they copy. -/
def Function.propagateCopies (f : Function) : Bool × Function :=
  let copies := f.copies
  f.substitute (copies[·]?)

end Ember.IR
