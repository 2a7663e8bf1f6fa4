import Ember.C.Operand

/-!
# Instructions in C

An instruction becomes a statement. A phi becomes assignments on the edges that lead to its block.
-/

namespace Ember.C

/-- A value converted to a type. -/
def converted (type value : String) : String :=
  "(" ++ type ++ ")" ++ value

/-- Two values joined by an operator. -/
def joined (left op right : String) : String :=
  left ++ " " ++ op ++ " " ++ right

/-- Two values of a type, joined in its unsigned type, where arithmetic wraps. -/
def wrapping (t : IR.Ty) (left op right : String) : String :=
  converted (typeName t) ("(" ++ joined (converted (unsignedName t) left) op (converted (unsignedName t) right) ++ ")")

/-- A value of a type, shifted in its unsigned type. -/
def shifting (t : IR.Ty) (left op right : String) : String :=
  converted (typeName t) ("(" ++ joined (converted (unsignedName t) left) op right ++ ")")

/-- A binary operation. -/
def binary (op : IR.BinaryOp) (t : IR.Ty) (left right : IR.Value) : String :=
  let l := value left t
  let r := value right t
  match op with
  | .add => wrapping t l "+" r
  | .sub => wrapping t l "-" r
  | .mul => wrapping t l "*" r
  | .udiv => wrapping t l "/" r
  | .urem => wrapping t l "%" r
  | .shl => shifting t l "<<" r
  | .lshr => shifting t l ">>" r
  | .sdiv | .fdiv => joined l "/" r
  | .srem => joined l "%" r
  | .ashr => joined l ">>" r
  | .and => joined l "&" r
  | .or => joined l "|" r
  | .xor => joined l "^" r
  | .fadd => joined l "+" r
  | .fsub => joined l "-" r
  | .fmul => joined l "*" r
  | .frem => (if t = .f32 then "fmodf" else "fmod") ++ "(" ++ l ++ ", " ++ r ++ ")"

/-- Two values of a type, compared in its unsigned type. -/
def unsignedCompare (t : IR.Ty) (left op right : String) : String :=
  joined (converted (unsignedName t) left) op (converted (unsignedName t) right)

/-- A comparison. -/
def compare (pred : IR.Predicate) (t : IR.Ty) (left right : IR.Value) : String :=
  let l := value left t
  let r := value right t
  match pred with
  | .eq | .oeq => joined l "==" r
  | .ne | .une => joined l "!=" r
  | .slt | .olt => joined l "<" r
  | .sle | .ole => joined l "<=" r
  | .sgt | .ogt => joined l ">" r
  | .sge | .oge => joined l ">=" r
  | .ult => unsignedCompare t l "<" r
  | .ule => unsignedCompare t l "<=" r
  | .ugt => unsignedCompare t l ">" r
  | .uge => unsignedCompare t l ">=" r
  | .one => "(" ++ joined l "<" r ++ " || " ++ joined l ">" r ++ ")"

/-- A unary operation. -/
def unary (op : IR.UnaryOp) (t : IR.Ty) (v : IR.Value) : String :=
  let x := value v t
  match op with
  | .neg => converted (typeName t) ("(" ++ joined "0" "-" (converted (unsignedName t) x) ++ ")")
  | .fneg => "-" ++ x
  | .not => (if t = .bool then "!" else "~") ++ x

/-- A conversion. -/
def cast (op : IR.CastOp) (v : IR.Value) (source target : IR.Ty) : String :=
  let x := value v source
  let plain := converted (typeName target) x
  match op with
  | .zext | .uitofp => converted (typeName target) (converted (unsignedName source) x)
  | .fptoui => converted (typeName target) (converted (unsignedName target) x)
  | .bitcast =>
    if source = target then x
    else if target = .ptr then "(void*)(intptr_t)" ++ x
    else if source = .ptr then converted (typeName target) ("(intptr_t)" ++ x)
    else plain
  | _ => plain

/-- An assignment to a register. -/
def assignment (dest : IR.Register) (expression : String) : String :=
  register dest ++ " = " ++ expression ++ ";"

/-- What a pointer points to. -/
def pointee (pointer : IR.Value) (t : IR.Ty) : String :=
  "*(" ++ typeName t ++ "*)" ++ value pointer .ptr

/-- The types of the arguments of a call: those of the callee's parameters; of two functions with one name the last counts. -/
def argumentTypes (m : IR.Module) (f : IR.Function) (callee : String) (args : List IR.Value) : List IR.Ty :=
  match m.functions.reverse.find? (·.name == callee) with
  | some g => g.params.map (·.2)
  | none => args.map fun v => (f.valueType? v).getD .i64

/-- The statement of an instruction; a phi has none. -/
def instruction (m : IR.Module) (f : IR.Function) : IR.Instruction → Option String
  | .assign dest v => some (assignment dest (value v ((f.registerType? dest).getD .i64)))
  | .binary dest op type left right => some (assignment dest (binary op type left right))
  | .compare dest pred type left right => some (assignment dest (compare pred type left right))
  | .unary dest op type v => some (assignment dest (unary op type v))
  | .cast dest op v source target => some (assignment dest (cast op v source target))
  | .call dest callee args ret =>
    let list := ", ".intercalate (List.zipWith value args (argumentTypes m f callee args))
    let call := callee ++ "(" ++ list ++ ")"
    match dest with
    | some dest => some (if ret = .void then call ++ ";" else assignment dest call)
    | none => some (call ++ ";")
  | .alloca dest _ => some (assignment dest ("&" ++ slot dest))
  | .load dest pointer type => some (assignment dest (pointee pointer type))
  | .store pointer v type => some (pointee pointer type ++ " = " ++ value v type ++ ";")
  | .phi .. => none

/-- The name of a block in C. A block that is not there has its number for a name. -/
def label (f : IR.Function) (id : IR.BlockId) : String :=
  match f.block? id with
  | some b => "bb" ++ toString id ++ "_" ++ safeName b.label
  | none => "bb" ++ toString id

/-- What the phis of a block receive along an edge. -/
def received (f : IR.Function) (source target : IR.BlockId) : List (IR.Register × IR.Ty × IR.Value) :=
  match f.block? target with
  | none => []
  | some b => b.instructions.filterMap fun
    | .phi dest type incoming =>
      (incoming.find? fun (_, block) => block = source).map fun (v, _) => (dest, type, v)
    | _ => none

/-- A local variable for the value of a phi. -/
def phiName (i : Nat) : String :=
  "_phi" ++ toString i

/-- The assignments along an edge. Several phis receive their values at the same time, so all are read before one is set. -/
def edge (f : IR.Function) (source target : IR.BlockId) : List String :=
  match received f source target with
  | [] => []
  | [(dest, type, v)] => [assignment dest (value v type)]
  | phis =>
    let reads := phis.mapIdx fun i (_, type, v) => typeName type ++ " " ++ phiName i ++ " = " ++ value v type ++ ";"
    let sets := phis.mapIdx fun i (dest, _, _) => assignment dest (phiName i)
    ["\x7b " ++ " ".intercalate (reads ++ sets) ++ " \x7d"]

/-- The statements that follow an edge. -/
def follow (f : IR.Function) (source target : IR.BlockId) : List String :=
  edge f source target ++ ["goto " ++ label f target ++ ";"]

/-- The statements of a terminator. -/
def terminator (f : IR.Function) (id : IR.BlockId) : IR.Terminator → List String
  | .ret (some v) => ["return " ++ value v f.ret ++ ";"]
  | .ret none => ["return;"]
  | .jump target => follow f id target
  | .branch cond yes no =>
    let arm (target : IR.BlockId) := "\x7b " ++ " ".intercalate (follow f id target) ++ " \x7d"
    ["if (" ++ value cond .bool ++ ") " ++ arm yes ++ " else " ++ arm no]
  | .unreachable => ["__builtin_unreachable();"]

end Ember.C
