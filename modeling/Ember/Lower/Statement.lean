import Ember.Lower.Expression

/-!
# Lowering statements

Control flow becomes blocks and jumps. Statements behind a return are skipped, and the user is warned.
-/

namespace Ember

namespace Lowering

/-- Lowers a condition to a boolean. -/
def condition (n : Node) : Lowering IR.Value := do
  let x ← read (← expression n)
  return (← cast .explicit x (TypeTable.primitive .bool) n.loc).value

/-- Ends the current block with a jump, if it has no end. -/
def jumpUnlessDone (target : IR.BlockId) : Lowering Unit := do
  if !(← build .isTerminated) then build (.jump target)

/-- Returns a value that must fit the return type. No value, or one without content, returns nothing. -/
def returnValue (value : Option Operand) (loc : Loc) : Lowering Unit := do
  match (← get).returns with
  | none => breach .returnOutside
  | some type =>
    let t ← typesWith (type :: (value.map (·.type)).toList)
    match value with
    | none =>
      if t.isVoid type then build (.ret none)
      else throw (.mismatch (.type (t.nameOf type)) (.type "void") loc)
    | some x =>
      if t.isVoid type && t.isVoid x.type then build (.ret none)
      else
        let x ← coerce x type loc
        build (.ret (some x.value))

/-- Lowers a return statement. -/
def returnStatement (value : Option Node) (loc : Loc) : Lowering Unit := do
  if (← get).returns.isNone then breach .returnOutside
  match value with
  | none | some ⟨_, .nothing⟩ => returnValue none loc
  | some n =>
    let x ← read (← expression n)
    returnValue (some x) loc

mutual

/-- Lowers a statement. -/
def statement : Node → Lowering Unit
  | ⟨_, .empty⟩ => return ()
  | ⟨_, .block stmts⟩ => do
    enterScope
    statementList stmts
    leaveScope
  | ⟨_, .expression inner⟩ => discard (expression inner)
  | ⟨_, .branch cond yes none⟩ => do
    let cond ← condition cond
    let yesBlock ← build (.appendBlock "then")
    let next ← build (.appendBlock "ifcont")
    build (.branch cond yesBlock next)
    build (.moveTo yesBlock)
    statement yes
    jumpUnlessDone next
    build (.moveTo next)
  | ⟨_, .branch cond yes (some no)⟩ => do
    let cond ← condition cond
    let yesBlock ← build (.appendBlock "then")
    let noBlock ← build (.appendBlock "else")
    let next ← build (.appendBlock "ifcont")
    build (.branch cond yesBlock noBlock)
    build (.moveTo yesBlock)
    statement yes
    jumpUnlessDone next
    build (.moveTo noBlock)
    statement no
    jumpUnlessDone next
    build (.moveTo next)
  | ⟨_, .whileLoop cond body⟩ => do
    let condBlock ← build (.appendBlock "loopcond")
    let bodyBlock ← build (.appendBlock "loopbody")
    let next ← build (.appendBlock "loopend")
    build (.jump condBlock)
    build (.moveTo condBlock)
    let cond ← condition cond
    build (.branch cond bodyBlock next)
    build (.moveTo bodyBlock)
    statement body
    jumpUnlessDone condBlock
    build (.moveTo next)
  | ⟨_, .forLoop init cond step body⟩ => do
    let initBlock ← build (.appendBlock "forinit")
    let condBlock ← build (.appendBlock "forcond")
    let bodyBlock ← build (.appendBlock "forbody")
    let stepBlock ← build (.appendBlock "forstep")
    let next ← build (.appendBlock "forend")
    build (.jump initBlock)
    enterScope
    build (.moveTo initBlock)
    optional init
    build (.jump condBlock)
    build (.moveTo condBlock)
    match cond with
    | some cond =>
      let cond ← condition cond
      build (.branch cond bodyBlock next)
    | none => build (.jump bodyBlock)
    build (.moveTo bodyBlock)
    statement body
    jumpUnlessDone stepBlock
    build (.moveTo stepBlock)
    match step with
    | some step => discard (expression step)
    | none => pure ()
    build (.jump condBlock)
    leaveScope
    build (.moveTo next)
  | ⟨loc, .forEach _ _ _⟩ => throw (.unsupported .forEach .loop loc)
  | ⟨loc, .ret value⟩ => returnStatement value loc
  | ⟨loc, .function head body declaration⟩ => misplaced (.function head body declaration) loc
  | ⟨loc, .prototype name returns params inlined⟩ => misplaced (.prototype name returns params inlined) loc
  | ⟨loc, .defineGlobal binder init⟩ => misplaced (.defineGlobal binder init) loc
  | ⟨loc, .importUnit target kind isPath⟩ => misplaced (.importUnit target kind isPath) loc
  | ⟨loc, .nameUnit name⟩ => misplaced (.nameUnit name) loc
  | ⟨loc, .alias name target⟩ => misplaced (.alias name target) loc
  | ⟨_, .parameter _ _⟩ => breach .strayParameter
  | n => discard (expression n)
where
  misplaced (form : Form Node) (loc : Loc) : Lowering Unit :=
    throw (.unsupported (.form form.name) .functionBody loc)

/-- Lowers a statement, if there is one. -/
def optional : Option Node → Lowering Unit
  | none => return ()
  | some n => statement n

/-- Lowers statements up to the first that is never executed. -/
def statementList : List Node → Lowering Unit
  | [] => return ()
  | n :: ns => do
    if ← build .isTerminated then warn .unreachableCode n.loc
    else
      statement n
      statementList ns

end

end Lowering

end Ember
