/-!
# Levels of optimization

How much work is done for speed, and whether small code counts more.
-/

namespace Ember

/-- Levels of optimization: for speed, or for size. -/
inductive Level where
  | none | less | default | aggressive
  /-- For size, and for size above all. -/
  | size | minSize
deriving DecidableEq, Repr

namespace Level

/-- The level that an option names. -/
def ofText? : String → Option Level
  | "0" => some .none
  | "1" => some .less
  | "2" => some .default
  | "3" => some .aggressive
  | "s" => some .size
  | "z" => some .minSize
  | _ => Option.none

/-- How much is done for speed. -/
def speed : Level → Nat
  | .none => 0
  | .less => 1
  | .default | .size | .minSize => 2
  | .aggressive => 3

/-- How much size counts. -/
def shrink : Level → Nat
  | .size => 1
  | .minSize => 2
  | _ => 0

def text (l : Level) : String :=
  "O" ++ toString l.speed

/-- The largest function that is inlined without being asked for. -/
def inlineBudget (l : Level) : Nat :=
  match l.shrink, l.speed with
  | 2, _ => 8
  | 1, _ => 20
  | _, 3 => 100
  | _, _ => 40

end Level

end Ember
