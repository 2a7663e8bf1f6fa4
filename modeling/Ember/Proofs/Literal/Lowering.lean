import Ember.Proofs.Literal.Reading
import Ember.Proofs.Lower.Run
import Ember.Proofs.Typing.Cast

/-!
# Lowering a function that returns a literal

The function is declared and its body is opened, and from there on lowering the source is lowering what the function returns
(`FunctionType.unit_eq`). A literal that has a value of the type of the result becomes this value (`coerce_literal`), and any other is
a mismatch (`coerce_literal_error`).
-/

namespace Ember

open Lowering

/-- The type of a function without parameters, in the table of the primitive types with this type. -/
structure FunctionType (debugInfo : Bool) (type : Primitive) (id : TypeId) (t : TypeTable) : Prop where
  made : (TypeTable.initial debugInfo).function ⟨TypeTable.primitive type, []⟩ = (id, t)
  valid : t.Valid
  entry : ∃ e, t.entries[id]? = some e ∧ e.signature? = some ⟨TypeTable.primitive type, []⟩
  free : t.count "f" = 0

theorem exists_functionType (debugInfo : Bool) (type : Primitive) : ∃ id t, FunctionType debugInfo type id t := by
  have hplain : (TypeTable.initial debugInfo).Plain (TypeTable.primitive type) :=
    ⟨_, TypeTable.getElem?_initial debugInfo type, rfl, fun _ => nofun⟩
  have hs : ∀ x ∈ (⟨TypeTable.primitive type, []⟩ : Signature).types, (TypeTable.initial debugInfo).Plain x := by
    simpa [Signature.types] using hplain
  obtain ⟨-, hvalid, e, he, hshape⟩ := (TypeTable.valid_initial debugInfo).function hs nofun
  refine ⟨_, _, rfl, hvalid, ⟨e, he, TypeTable.signature?_eq_some.mpr hshape⟩, ?_⟩
  cases type <;> cases debugInfo <;> decide +kernel

theorem typesWith_of {w : Workspace} {ids : List TypeId} (h : HasTypes w ids) : typesWith ids w = .ok w.types w :=
  run_typesWith.mpr ⟨h, rfl, rfl⟩

theorem hasTypes_primitive {w : Workspace} (hw : w.types.Valid) (ps : List Primitive) : HasTypes w (ps.map TypeTable.primitive) := by
  intro id hid
  obtain ⟨p, -, rfl⟩ := List.mem_map.mp hid
  exact (List.getElem?_eq_some_iff.mp (hw.primitive p)).1

theorem immutableOf_primitive {w : Workspace} (hw : w.types.Valid) (p : Primitive) :
    immutableOf (TypeTable.primitive p) w = .ok (TypeTable.primitive p) w := by
  have himm : w.types.immutableOf (TypeTable.primitive p) = (TypeTable.primitive p, w.types) := by
    rw [TypeTable.immutableOf, TypeTable.entry_eq (hw.primitive p)]
    rfl
  exact run_immutableOf.mpr ⟨hasTypes_primitive hw [p], congrArg Prod.fst himm, by rw [himm]⟩

namespace FunctionType

variable {debugInfo : Bool} {type : Primitive} {id : TypeId} {t : TypeTable} {w : Workspace}

variable (h : FunctionType debugInfo type id t)
include h

theorem typesWith_function (hw : w.types = t) : typesWith [id] w = .ok w.types w := by
  obtain ⟨e, he, -⟩ := h.entry
  refine typesWith_of (List.forall_mem_singleton.mpr ?_)
  rw [hw]
  exact (List.getElem?_eq_some_iff.mp he).1

theorem typesWith_result (hw : w.types = t) : typesWith [TypeTable.primitive type] w = .ok w.types w :=
  typesWith_of (hasTypes_primitive (hw ▸ h.valid) [type])

theorem signature : (t.entry id).signature? = some ⟨TypeTable.primitive type, []⟩ := by
  obtain ⟨e, he, hsignature⟩ := h.entry
  rw [TypeTable.entry_eq he, hsignature]

theorem debugTypes_ok (hw : w.types = t) : ∃ texts, debugTypes id w = .ok texts w := by
  unfold debugTypes
  rw [bind_of_ok (h.typesWith_function hw), hw, h.signature]
  exact ⟨_, (bind_of_ok (h.typesWith_result hw)).trans rfl⟩

end FunctionType

section

variable (file : SourceFile) (type : Primitive) (id : TypeId) (t : TypeTable) (loc : Loc)

/-- The function, with some blocks. -/
def IR.Function.returning (debug : Option IR.Subprogram) (blocks : List IR.Block) : IR.Function :=
  { name := "f", mangled := t.symbolOf "f" id, params := [], ret := type.ir, blocks, debug }

/-- The module of the function. -/
def IR.Module.returning (debug : Option IR.Subprogram) (blocks : List IR.Block) : IR.Module :=
  { name := file.stem, source := file.path, functions := [.returning type id t debug blocks] }

/-- The name of the function, in the global scope. -/
def Symbol.returning : Symbol :=
  { name := "f", operand := { type := id, value := .function "f" }, loc, isFunction := true }

/-- The workspace when the function is declared. -/
def Workspace.declared (debug : Option IR.Subprogram) (journal : Journal) : Workspace :=
  { types := t
    scopes := [[.returning id loc]]
    builder := { module := .returning file type id t debug [] }
    journal }

/-- The workspace before what is returned is lowered. -/
def Workspace.opened (debug : Option IR.Subprogram) (journal : Journal) : Workspace :=
  { types := t
    scopes := [[], [], [.returning id loc]]
    builder := { module := .returning file type id t debug [{ id := 0, label := "entry" }], function := some 0, block := some 0 }
    defined := ["f"]
    returns := some (TypeTable.primitive type)
    journal }

/-- What is done after what is returned was lowered. -/
def Lowering.ending : Lowering Unit := do
  leaveScope
  finish "f" (TypeTable.primitive type) loc
  leaveScope
  modify fun w => { w with returns := none }

end

variable {file : SourceFile} {debugInfo : Bool} {type : Primitive} {id : TypeId} {t : TypeTable}

section

variable (h : FunctionType debugInfo type id t)
include h

theorem FunctionType.newFunction_ok (file : SourceFile) (loc : Loc) : ∃ debug journal,
    newFunction "f" [] type.ir id false loc { file.workspace debugInfo with types := t } =
      .ok () (.declared file type id t loc debug journal) := by
  let start : Workspace := { file.workspace debugInfo with types := t }
  let made : Workspace :=
    { start with builder := { start.builder with
        module := { start.builder.module with functions := [{ name := "f", params := [], ret := type.ir }] } } }
  have hcheck : checkNotReserved "f" loc start = .ok () start := by
    show (if 0 < t.count "f" then throw (.redefined "f" loc) else pure () : Lowering Unit) start = _
    rw [h.free]
    rfl
  have hdeclare : build (.declare "f" [] type.ir) start = .ok 0 made := rfl
  obtain ⟨texts, htexts⟩ := h.debugTypes_ok (rfl : made.types = t)
  unfold newFunction
  rw [bind_of_ok hcheck, bind_of_ok hdeclare, bind_of_ok (h.typesWith_function rfl)]
  by_cases hflag : made.types.debugInfo = true
  · refine ⟨some ⟨file.path, loc.line, texts⟩, [.declared "f" (t.nameOf id)], ?_⟩
    rw [if_pos hflag]
    exact (bind_of_ok htexts).trans rfl
  · refine ⟨none, [.declared "f" (t.nameOf id)], ?_⟩
    rw [if_neg hflag]
    rfl

theorem FunctionType.declaration_ok (file : SourceFile) {p : Places} (hname : p.returns.name = type.name)
    (hmutable : p.returns.mutable = false) (e : Node) : ∃ debug journal,
      declaration (p.function e) (file.workspace debugInfo) = .ok () (.declared file type id t p.item debug journal) := by
  obtain ⟨item, block, stmt, ⟨name, mutable, loc⟩⟩ := p
  obtain rfl : name = type.name := hname
  obtain rfl : mutable = false := hmutable
  have hinitial := TypeTable.valid_initial debugInfo
  have htypes : HasTypes (file.workspace debugInfo) [TypeTable.primitive type] := hasTypes_primitive hinitial [type]
  have hresolve : resolve ⟨type.name, false, loc⟩ (file.workspace debugInfo) =
      .ok (TypeTable.primitive type) (file.workspace debugInfo) := by
    have hlookup : (TypeTable.initial debugInfo).lookup? type.name = some (TypeTable.primitive type) :=
      hinitial.lookup? (TypeTable.getElem?_initial debugInfo type)
    exact run_resolve.mpr ⟨_, by rw [SourceFile.workspace, TypeTable.resolve, hlookup]; rfl, rfl⟩
  have himmutable := immutableOf_primitive (w := file.workspace debugInfo) hinitial type
  have hfunction : onTypes (·.function ⟨TypeTable.primitive type, []⟩) (file.workspace debugInfo) =
      .ok id { file.workspace debugInfo with types := t } := run_onTypes.mpr ⟨congrArg Prod.fst h.made, by
        rw [show (file.workspace debugInfo).types = .initial debugInfo from rfl, h.made]⟩
  have hir : irOf (TypeTable.primitive type) { file.workspace debugInfo with types := t } =
      .ok type.ir { file.workspace debugInfo with types := t } :=
    run_irOf.mpr ⟨hasTypes_primitive h.valid [type], h.valid.ir_primitive type, rfl⟩
  obtain ⟨debug, journal, hnew⟩ := h.newFunction_ok file item
  refine ⟨debug, journal, ?_⟩
  unfold Places.function declaration prototype
  simp only [List.mapM_nil, pure_bind, List.map_nil]
  rw [bind_of_ok hresolve, bind_of_ok himmutable, bind_of_ok (typesWith_of htypes), bind_of_ok hfunction]
  show (irOf (TypeTable.primitive type) >>= fun ir => newFunction "f" [] ir id false item) _ = _
  rw [bind_of_ok hir]
  exact hnew

theorem FunctionType.definition_eq (p : Places) (debug : Option IR.Subprogram) (journal : Journal) (e : Node) :
    definition (p.function e) (.declared file type id t p.item debug journal) =
      (returnStatement (some e) p.statement >>= fun _ => ending type p.item) (.opened file type id t p.item debug journal) := by
  let entered : Workspace := { Workspace.declared file type id t p.item debug journal with defined := ["f"] }
  let opened := Workspace.opened file type id t p.item debug journal
  have hsignature : (entered.types.entry (Symbol.returning id p.item).operand.type).signature? = some ⟨TypeTable.primitive type, []⟩ :=
    h.signature
  have henter : enterScope { opened with scopes := [[], [.returning id p.item]] } = .ok () opened := rfl
  have hterminated : build .isTerminated opened = .ok false opened := rfl
  show (typesWith [id] >>= _) entered = _
  rw [bind_of_ok (h.typesWith_function rfl), hsignature]
  show (statement ⟨p.block, .block [⟨p.statement, .ret (some e)⟩]⟩ >>= fun _ => _) { opened with scopes := [[], [.returning id p.item]] } = _
  simp only [statement, bind_assoc]
  rw [bind_of_ok henter]
  simp only [statementList, statement, bind_assoc]
  rw [bind_of_ok hterminated]
  simp only [Bool.false_eq_true, if_false, bind_assoc, pure_bind]
  rfl

/-- The source is lowered like what the function returns. -/
theorem FunctionType.unit_eq (file : SourceFile) {p : Places} (hname : p.returns.name = type.name) (hmutable : p.returns.mutable = false)
    (e : Node) : ∃ debug journal,
      Lowering.unit ⟨.start, .block [p.function e]⟩ (file.workspace debugInfo) =
        (returnStatement (some e) p.statement >>= fun _ => ending type p.item) (.opened file type id t p.item debug journal) := by
  obtain ⟨debug, journal, hdeclaration⟩ := h.declaration_ok file hname hmutable e
  refine ⟨debug, journal, ?_⟩
  have hsingle : ∀ step : Node → Lowering Unit, [p.function e].forM step = step (p.function e) := fun step =>
    (rfl : [p.function e].forM step = step (p.function e) >>= fun _ => pure ()).trans bind_pure_unit
  unfold Lowering.unit
  simp only [Node.items, hsingle]
  rw [bind_of_ok hdeclaration, h.definition_eq]

end

/-! ## Literals -/

/-- The integers of an integral type: those of a byte, or the signed ones of its width. -/
def Primitive.Ranges (p : Primitive) (v : Int) : Prop :=
  if p = .byte then 0 ≤ v ∧ v ≤ 255 else -2 ^ (p.ir.bits - 1) ≤ v ∧ v < 2 ^ (p.ir.bits - 1)

instance (p : Primitive) (v : Int) : Decidable (p.Ranges v) :=
  inferInstanceAs (Decidable (if p = .byte then 0 ≤ v ∧ v ≤ 255 else -2 ^ (p.ir.bits - 1) ≤ v ∧ v < 2 ^ (p.ir.bits - 1)))

theorem bmod_eq_self_iff (n : Int) (k : Nat) : n.bmod (2 ^ (k + 1)) = n ↔ -2 ^ k ≤ n ∧ n < 2 ^ k := by
  have hpos : 0 < 2 ^ (k + 1) := Nat.two_pow_pos _
  have hhalf : ((2 ^ (k + 1) : Nat) : Int) = 2 * 2 ^ k := by
    push_cast
    ring
  constructor
  · intro h
    have hle := Int.le_bmod hpos (x := n)
    have hlt := Int.bmod_lt hpos (x := n)
    rw [h, hhalf] at hle hlt
    omega
  · intro h
    exact Int.bmod_eq_of_le (by rw [hhalf]; omega) (by rw [hhalf]; omega)

/-- Wrapping changes nothing but integers that are too large for the width. -/
theorem IR.Ty.wrap_eq_iff {ty : IR.Ty} (hty : ty.isInteger = true) (hbool : ty ≠ .bool) (n : Int64) :
    ty.wrap n = n ↔ -2 ^ (ty.bits - 1) ≤ n.toInt ∧ n.toInt < 2 ^ (ty.bits - 1) := by
  rw [← Int64.toInt_inj]
  match ty with
  | .i8 => rw [IR.Ty.wrap, Int8.toInt_toInt64, Int64.toInt_toInt8]; exact bmod_eq_self_iff _ 7
  | .i16 => rw [IR.Ty.wrap, Int16.toInt_toInt64, Int64.toInt_toInt16]; exact bmod_eq_self_iff _ 15
  | .i32 => rw [IR.Ty.wrap, Int32.toInt_toInt64, Int64.toInt_toInt32]; exact bmod_eq_self_iff _ 31
  | .i64 => exact iff_of_true rfl ⟨n.le_toInt, n.toInt_lt⟩

theorem Primitive.holds_iff {p : Primitive} (hp : p.isIntegral = true) (n : Int64) :
    (TypeKind.primitive p).holds p.ir n = true ↔ p.Ranges n.toInt := by
  by_cases hbyte : p = .byte
  · subst hbyte
    simp [TypeKind.holds, Ranges, Int64.le_iff_toInt_le]
  · have hkind : TypeKind.primitive p ≠ .primitive .byte := fun h => hbyte (TypeKind.primitive.inj h)
    rw [TypeKind.holds, if_neg hkind, Ranges, if_neg hbyte, beq_iff_eq]
    exact IR.Ty.wrap_eq_iff (isInteger_ir hp).1 (isInteger_ir hp).2 n

theorem TypeTable.Valid.core_primitive (h : t.Valid) (p : Primitive) : t.core (TypeTable.primitive p) = TypeTable.primitive p := by
  have hentry := h.primitive p
  have hunqualified : t.unqualified (TypeTable.primitive p) = TypeTable.primitive p := by
    rw [TypeTable.unqualified, TypeTable.entry_eq hentry]
    rfl
  rw [TypeTable.core, hunqualified, TypeTable.resolveAlias_other hentry (fun _ h => by cases h), hunqualified]

theorem TypeTable.primitive_inj {p q : Primitive} (h : TypeTable.primitive p = TypeTable.primitive q) : p = q := by
  revert h
  cases p <;> cases q <;> decide

namespace Lowering

variable {w : Workspace} {p : Primitive} {loc : Loc}

variable (hw : w.types.Valid)
include hw

/-- A literal takes an integral type if it has a value there. -/
theorem adapt_literal (hp : p.isIntegral = true) (source : TypeId) (n : Int64) :
    adapt (.literal source (.int n)) (TypeTable.primitive p) w = .ok (if (TypeKind.primitive p).holds p.ir n = true then
      .literal (TypeTable.primitive p) (.int (p.ir.wrap n)) else .literal source (.int n)) w := by
  have htypes : HasTypes w [TypeTable.primitive p] := hasTypes_primitive hw [p]
  unfold adapt
  rw [if_neg (show ¬(!(Operand.literal source (.int n)).isLiteral) = true from Bool.false_ne_true), bind_of_ok (immutableOf_primitive hw p),
    bind_of_ok (typesWith_of htypes), hw.kind_primitive, hw.ir_primitive]
  have hkind : (TypeKind.primitive p).isIntegral = true := hp
  simp only [Operand.literal, TypeKind.adapt?, hkind, Bool.true_and]
  by_cases hn : (TypeKind.primitive p).holds p.ir n = true
  · rw [if_pos hn, if_pos hn]
    rfl
  · rw [if_neg hn, if_neg hn]
    rfl

/-- A literal that has a value of an integral type becomes this value. -/
theorem coerce_literal (hp : p.isIntegral = true) (source : TypeId) {n : Int64} (hn : (TypeKind.primitive p).holds p.ir n = true) :
    coerce (.literal source (.int n)) (TypeTable.primitive p) loc w =
      .ok (.literal (TypeTable.primitive p) (.int (p.ir.wrap n))) w := by
  have htypes : HasTypes w [TypeTable.primitive p, TypeTable.primitive p] := hasTypes_primitive hw [p, p]
  have haccepts : w.types.accepts (TypeTable.primitive p) (TypeTable.primitive p) = true := by simp [TypeTable.accepts, TypeTable.alike]
  have hplan : w.types.plan? (TypeTable.primitive p) (TypeTable.primitive p) .implicit = some .identity := by simp [TypeTable.plan?]
  have hcast : cast .implicit (.literal (TypeTable.primitive p) (.int (p.ir.wrap n))) (TypeTable.primitive p) loc w =
      .ok (.literal (TypeTable.primitive p) (.int (p.ir.wrap n))) w := by
    refine (bind_of_ok (typesWith_of htypes)).trans ?_
    simp only [Operand.literal, hplan]
    rfl
  refine (bind_of_ok (adapt_literal hw hp source n)).trans ?_
  rw [if_pos hn]
  refine (bind_of_ok (typesWith_of htypes)).trans ?_
  have haccepted : ¬(!w.types.accepts (TypeTable.primitive p) (TypeTable.primitive p)) = true := by simp [haccepts]
  exact (congrFun (if_neg haccepted) w).trans hcast

/-- The type that a literal has by itself. -/
def literalType (n : Int64) : Primitive :=
  if IR.Ty.wrap .i32 n = n then .i32 else .i64

/-- A literal that has no value of an integral type has another type. -/
theorem coerce_literal_error (hp : p.isIntegral = true) {n : Int64} (hn : (TypeKind.primitive p).holds p.ir n = false) (loc : Loc) :
    ∃ expected got,
      coerce (.literal (TypeTable.primitive (literalType n)) (.int n)) (TypeTable.primitive p) loc w =
        .error (.mismatch expected got loc) w := by
  have htypes : HasTypes w [TypeTable.primitive (literalType n), TypeTable.primitive p] := hasTypes_primitive hw [literalType n, p]
  have hne : literalType n ≠ p := by
    rintro rfl
    unfold literalType at hn
    split at hn
    · rename_i hwrap
      simp [TypeKind.holds, Primitive.ir, hwrap] at hn
    · simp [TypeKind.holds, Primitive.ir, IR.Ty.wrap] at hn
  have haccepts : w.types.accepts (TypeTable.primitive (literalType n)) (TypeTable.primitive p) = false := by
    rw [Bool.eq_false_iff]
    intro h
    have halike := TypeTable.alike_of_accepts h
    rw [TypeTable.alike, hw.core_primitive, hw.core_primitive, beq_iff_eq] at halike
    exact hne (TypeTable.primitive_inj halike)
  refine ⟨.type (w.types.nameOf (TypeTable.primitive p)), .type (w.types.nameOf (TypeTable.primitive (literalType n))), ?_⟩
  refine (bind_of_ok (adapt_literal hw hp _ n)).trans ?_
  rw [if_neg (by simp [hn])]
  refine (bind_of_ok (typesWith_of htypes)).trans ?_
  have hrefused : (!w.types.accepts (TypeTable.primitive (literalType n)) (TypeTable.primitive p)) = true := by simp [haccepts]
  refine (congrFun (if_pos hrefused) w).trans ?_
  refine (bind_of_ok (run_nameOf.mpr ⟨hasTypes_primitive hw [p], rfl, rfl⟩)).trans (bind_of_error ?_)
  exact bind_of_ok (run_nameOf.mpr ⟨hasTypes_primitive hw [literalType n], rfl, rfl⟩)

/-- What a returned literal comes to. -/
theorem returnStatement_literal (hreturns : w.returns = some (TypeTable.primitive p)) (hp : p.isIntegral = true) (loc' : Loc) (n : Int64) :
    returnStatement (some ⟨loc', .integer n⟩) loc w =
      (coerce (.literal (TypeTable.primitive (literalType n)) (.int n)) (TypeTable.primitive p) loc >>= fun x =>
        build (.ret (some x.value))) w := by
  have htypes : HasTypes w [TypeTable.primitive p, TypeTable.primitive (literalType n)] := hasTypes_primitive hw [p, literalType n]
  have hvoid : w.types.isVoid (TypeTable.primitive p) = false := by
    rw [TypeTable.isVoid, hw.kind_primitive]
    cases p <;> first | rfl | cases hp
  have hget : (get : Lowering Workspace) w = .ok w w := rfl
  have hvalue : returnValue (some (.literal (TypeTable.primitive (literalType n)) (.int n))) loc w =
      (coerce (.literal (TypeTable.primitive (literalType n)) (.int n)) (TypeTable.primitive p) loc >>= fun x =>
        build (.ret (some x.value))) w := by
    unfold returnValue
    rw [bind_of_ok hget, hreturns]
    refine (bind_of_ok (typesWith_of htypes)).trans ?_
    simp only [hvoid, Bool.false_and, Bool.false_eq_true, if_false]
  unfold returnStatement
  rw [bind_of_ok hget, hreturns]
  exact hvalue

end Lowering

end Ember
