import Ember.IR.Module

/-!
# Printed form

A module as text, one line for each instruction. Blocks are named by their labels and registers by their numbers.
-/

namespace Ember.IR

namespace Function

/-- The label of a block. A block that is not there has its number for a name. -/
def labelOf (f : Function) (id : BlockId) : String :=
  match f.block? id with
  | some b => b.label
  | none => "bb" ++ toString id

/-- A value behind its type. -/
def typedText (f : Function) (v : Value) : String :=
  ((f.valueType? v).getD .ptr).text ++ " " ++ v.text

end Function

/-- An instruction inside its function. -/
def Instruction.text (f : Function) : Instruction → String
  | .assign dest value =>
    let type := (f.registerType? dest).getD .void
    s!"%{dest} = copy {type.text} {value.text}"
  | .binary dest op type left right => s!"%{dest} = {op.name} {type.text} {left.text}, {right.text}"
  | .compare dest pred type left right =>
    let sort := if pred.isFloat then "fcmp" else "icmp"
    s!"%{dest} = {sort} {pred.name} {type.text} {left.text}, {right.text}"
  | .unary dest op type value => s!"%{dest} = {op.name} {type.text} {value.text}"
  | .cast dest op value source target => s!"%{dest} = {op.name} {source.text} {value.text} to {target.text}"
  | .call dest callee args ret =>
    let result := match dest with
      | some d => s!"%{d} = "
      | none => ""
    let list := ", ".intercalate (args.map f.typedText)
    s!"{result}call {ret.text} @{callee}({list})"
  | .alloca dest type => s!"%{dest} = alloca {type.text}"
  | .load dest pointer type => s!"%{dest} = load {type.text}, ptr {pointer.text}"
  | .store pointer value type => s!"store {type.text} {value.text}, ptr {pointer.text}"
  | .phi dest type incoming =>
    let edges := incoming.map fun (value, block) => "[ " ++ value.text ++ ", %" ++ f.labelOf block ++ " ]"
    let list := ", ".intercalate edges
    s!"%{dest} = phi {type.text} {list}"

/-- A terminator inside its function. -/
def Terminator.text (f : Function) : Terminator → String
  | .ret (some value) => s!"ret {f.ret.text} {value.text}"
  | .ret none => "ret void"
  | .jump target => s!"br label %{f.labelOf target}"
  | .branch cond yes no => s!"br i1 {cond.text}, label %{f.labelOf yes}, label %{f.labelOf no}"
  | .unreachable => "unreachable"

/-- The lines of a block. -/
def Block.lines (f : Function) (b : Block) : List String :=
  [b.label ++ ":"] ++ b.instructions.map (fun i => "  " ++ i.text f) ++
    (b.terminator.map fun t => "  " ++ t.text f).toList

/-- The line that says where a function was written. -/
def Subprogram.comment (d : Subprogram) : String :=
  let types := if d.types.isEmpty then "" else " [" ++ ", ".intercalate d.types ++ "]"
  s!"; !dbg {d.file}:{d.line}{types}"

namespace Function

/-- The lines of a function: a declaration, or a definition with its blocks. -/
def lines (f : Function) : List String :=
  if f.isDeclaration then
    let params := ", ".intercalate (f.params.map (·.2.text))
    [s!"declare {f.ret.text} @{f.name}({params})"]
  else
    let params := ", ".intercalate (f.params.mapIdx fun i p => p.2.text ++ " %arg" ++ toString i)
    let mark := if f.alwaysInline then " alwaysinline" else ""
    (if f.mangled.isEmpty then [] else ["; mangled: " ++ f.mangled]) ++
      (f.debug.map (·.comment)).toList ++
      [s!"define {f.ret.text} @{f.name}({params}){mark} \x7b"] ++
      [""].intercalate (f.blocks.map (·.lines f)) ++ ["\x7d"]

end Function

/-- The line of a global. -/
def Global.text (g : Global) : String :=
  let sort := if g.mutable then "global" else "constant"
  s!"@{g.name} = {sort} {g.type.text} {g.init.text}"

namespace Module

/-- The lines of a module. -/
def lines (m : Module) : List String :=
  ["; ModuleID = '" ++ m.name ++ "'"] ++
    (if m.source.isEmpty then [] else ["source_filename = \"" ++ m.source ++ "\""]) ++
    m.imports.map ("; import " ++ ·) ++
    (if m.globals.isEmpty then [] else [""]) ++ m.globals.map (·.text) ++
    m.functions.flatMap fun f => "" :: f.lines

/-- The module as text. -/
def text (m : Module) : String :=
  String.join (m.lines.map (· ++ "\n"))

end Module

end Ember.IR
