import Ember.IR.Op
import Ember.IR.Value

/-!
# Instructions and terminators

What a block does, one instruction after the other, and how it ends. Every instruction has a list of operands, which can
be exchanged, and may have one destination register.
-/

namespace Ember.IR

/-- Instructions. -/
inductive Instruction where
  | assign (dest : Register) (value : Value)
  | binary (dest : Register) (op : BinaryOp) (type : Ty) (left right : Value)
  | compare (dest : Register) (pred : Predicate) (type : Ty) (left right : Value)
  | unary (dest : Register) (op : UnaryOp) (type : Ty) (value : Value)
  | cast (dest : Register) (op : CastOp) (value : Value) (source target : Ty)
  | call (dest : Option Register) (callee : String) (args : List Value) (ret : Ty)
  | alloca (dest : Register) (type : Ty)
  | load (dest : Register) (pointer : Value) (type : Ty)
  | store (pointer value : Value) (type : Ty)
  | phi (dest : Register) (type : Ty) (incoming : List (Value × BlockId))
deriving DecidableEq, Repr

namespace Instruction

/-- The register that the instruction sets. -/
def dest? : Instruction → Option Register
  | .assign dest _ => some dest
  | .binary dest _ _ _ _ => some dest
  | .compare dest _ _ _ _ => some dest
  | .unary dest _ _ _ => some dest
  | .cast dest _ _ _ _ => some dest
  | .call dest _ _ _ => dest
  | .alloca dest _ => some dest
  | .load dest _ _ => some dest
  | .store _ _ _ => none
  | .phi dest _ _ => some dest

/-- The operands, in the order in which they are written. -/
def operands : Instruction → List Value
  | .assign _ value => [value]
  | .binary _ _ _ left right => [left, right]
  | .compare _ _ _ left right => [left, right]
  | .unary _ _ _ value => [value]
  | .cast _ _ value _ _ => [value]
  | .call _ _ args _ => args
  | .alloca _ _ => []
  | .load _ pointer _ => [pointer]
  | .store pointer value _ => [pointer, value]
  | .phi _ _ incoming => incoming.map (·.1)

/-- Changes every operand. -/
def mapOperands (f : Value → Value) : Instruction → Instruction
  | .assign dest value => .assign dest (f value)
  | .binary dest op type left right => .binary dest op type (f left) (f right)
  | .compare dest pred type left right => .compare dest pred type (f left) (f right)
  | .unary dest op type value => .unary dest op type (f value)
  | .cast dest op value source target => .cast dest op (f value) source target
  | .call dest callee args ret => .call dest callee (args.map f) ret
  | .alloca dest type => .alloca dest type
  | .load dest pointer type => .load dest (f pointer) type
  | .store pointer value type => .store (f pointer) (f value) type
  | .phi dest type incoming => .phi dest type (incoming.map fun (value, block) => (f value, block))

/-- Changes the destination. -/
def mapDest (f : Register → Register) : Instruction → Instruction
  | .assign dest value => .assign (f dest) value
  | .binary dest op type left right => .binary (f dest) op type left right
  | .compare dest pred type left right => .compare (f dest) pred type left right
  | .unary dest op type value => .unary (f dest) op type value
  | .cast dest op value source target => .cast (f dest) op value source target
  | .call dest callee args ret => .call (dest.map f) callee args ret
  | .alloca dest type => .alloca (f dest) type
  | .load dest pointer type => .load (f dest) pointer type
  | .store pointer value type => .store pointer value type
  | .phi dest type incoming => .phi (f dest) type incoming

/-- Changes the edges of a phi. -/
def mapIncoming (f : List (Value × BlockId) → List (Value × BlockId)) : Instruction → Instruction
  | .phi dest type incoming => .phi dest type (f incoming)
  | i => i

/-- Calls and stores do more than set their destination. -/
def hasEffect : Instruction → Bool
  | .call .. => true
  | .store .. => true
  | _ => false

def isAlloca : Instruction → Bool
  | .alloca .. => true
  | _ => false

end Instruction

/-- How a block ends. -/
inductive Terminator where
  | ret (value : Option Value)
  | jump (target : BlockId)
  | branch (cond : Value) (yes no : BlockId)
  | unreachable
deriving DecidableEq, Repr

namespace Terminator

/-- The blocks that may follow. -/
def successors : Terminator → List BlockId
  | .jump target => [target]
  | .branch _ yes no => [yes, no]
  | _ => []

def operands : Terminator → List Value
  | .ret (some value) => [value]
  | .branch cond _ _ => [cond]
  | _ => []

/-- Changes every operand. -/
def mapOperands (f : Value → Value) : Terminator → Terminator
  | .ret value => .ret (value.map f)
  | .branch cond yes no => .branch (f cond) yes no
  | t => t

/-- Changes every target. -/
def mapTargets (f : BlockId → BlockId) : Terminator → Terminator
  | .jump target => .jump (f target)
  | .branch cond yes no => .branch cond (f yes) (f no)
  | t => t

end Terminator

end Ember.IR
