import Ember.C.Statement
import Ember.Fault

/-!
# Modules in C

The text of a module: headers, imports as comments, globals, prototypes, and the functions that have a body.
-/

namespace Ember.C

/-- The head of a function; parameters have names only where it is defined. -/
def prototype (f : IR.Function) (named : Bool) : String :=
  let params := f.params.mapIdx fun i (_, type) =>
    if named then typeName type ++ " " ++ parameter i else typeName type
  let list := if params.isEmpty then "void" else ", ".intercalate params
  typeName f.ret ++ " " ++ f.name ++ "(" ++ list ++ ")"

/-- A line inside a function. -/
def indented (line : String) : String :=
  "    " ++ line

/-- The declarations of registers and slots. -/
def locals (f : IR.Function) : List String :=
  let registers := f.registers.toList.zipIdx.filterMap fun (type, r) =>
    if type = .void then none else some (typeName type ++ " " ++ register r ++ ";")
  let slots := f.instructions.filterMap fun
    | .alloca dest type => some (typeName type ++ " " ++ slot dest ++ ";")
    | _ => none
  registers ++ slots

/-- The lines of a block, which must have an end. -/
def block (m : IR.Module) (f : IR.Function) (id : IR.BlockId) (b : IR.Block) : Except Fault (List String) :=
  match b.terminator with
  | none => .error (.openBlock f.name b.label)
  | some t =>
    .ok ((label f id ++ ":;") :: (b.instructions.filterMap (instruction m f) ++ terminator f id t).map indented)

/-- The lines of a function. -/
def function (m : IR.Module) (debugInfo : Bool) (f : IR.Function) : Except Fault (List String) := do
  let blocks ← f.blocks.zipIdx.mapM fun (b, id) => block m f id b
  let symbol := if f.mangled.isEmpty then [] else ["/* " ++ f.mangled ++ " */"]
  let line := match f.debug with
    | some debug => if debugInfo then ["#line " ++ toString debug.line ++ " " ++ quoted debug.file] else []
    | none => []
  let start := if f.entry = 0 then [] else ["goto " ++ label f f.entry ++ ";"]
  return symbol ++ line ++ [prototype f true ++ " \x7b"] ++ (locals f ++ start).map indented ++ blocks.flatten ++
    ["\x7d", ""]

/-- The line of a global. -/
def global (g : IR.Global) : String :=
  "static " ++ (if g.mutable then "" else "const ") ++ typeName g.type ++ " " ++ g.name ++ " = " ++
    constant g.init g.type ++ ";"

/-- The headers that every module needs. -/
def headers : List String := ["stdbool.h", "stddef.h", "stdint.h", "math.h"]

end Ember.C

namespace Ember.IR.Module

/-- The module as C text. -/
def toC (m : Module) (debugInfo : Bool) : Except Fault String := do
  let functions ← (m.functions.filter fun f => !f.isDeclaration).mapM (C.function m debugInfo)
  let lines :=
    ["/* " ++ m.name ++ " - generated by emberc */"] ++ C.headers.map (fun h => "#include <" ++ h ++ ">") ++
      m.imports.map (fun target => "/* import " ++ target ++ " */") ++ [""] ++
      m.globals.map C.global ++ (if m.globals.isEmpty then [] else [""]) ++
      m.functions.map (fun f => C.prototype f false ++ ";") ++ [""] ++ functions.flatten
  return String.join (lines.map (· ++ "\n"))

end Ember.IR.Module
