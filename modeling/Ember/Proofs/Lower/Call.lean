import Ember.Proofs.Lower.Sound
import Ember.Proofs.Typing.Symbol

/-!
# Calls

A call is accepted exactly if every parameter gets an argument that it admits (`TypeTable.Admits`). The places among the arguments that are
not passed by their address are read, in the order of the arguments, and then the function is called with what was read and what was given.
A call that is refused names the first argument that its parameter does not admit (`call_exact`).
-/

namespace Ember

open IR (Function Instruction Value Register Block BlockId Ty)

/-- What a parameter asks of an argument: its type, up to mutability and aliases, and for a `ref` a place that may be assigned. -/
def TypeTable.Admits (t : TypeTable) (param : TypeId × PassMode) (arg : Operand) : Prop :=
  t.alike arg.type param.1 = true ∧ (param.2 = .ref → arg.isPlace = true ∧ arg.mutable = true)

/-- The first argument that its parameter does not admit has `k` others before it. -/
def TypeTable.FirstRefused (t : TypeTable) (params : List (TypeId × PassMode)) (args : List Operand) (k : Nat) : Prop :=
  List.Forall₂ t.Admits (params.take k) (args.take k) ∧ ∃ param arg, params[k]? = some param ∧ args[k]? = some arg ∧ ¬t.Admits param arg

/-- Whether an argument is read before it is passed. -/
def Operand.isRead (param : TypeId × PassMode) (arg : Operand) : Bool :=
  arg.isPlace && param.2 != .ref

/-- The types and addresses of the places that are read. -/
def TypeTable.readings (t : TypeTable) : List (TypeId × PassMode) → List Operand → List (Ty × Value)
  | param :: params, arg :: args =>
    (if arg.isRead param then [(t.ir (t.unqualified arg.type), arg.value)] else []) ++ t.readings params args
  | _, _ => []

/-- The values that are passed, if those that are read go to the registers from `next` on. -/
def passed (next : Register) : List (TypeId × PassMode) → List Operand → List Value
  | param :: params, arg :: args =>
    if arg.isRead param then .register next :: passed (next + 1) params args else arg.value :: passed next params args
  | _, _ => []

namespace IR.Function

/-- Reads places into new registers at the end of a block. -/
def reads (f : Function) (c : BlockId) (places : List (Ty × Value)) : Function :=
  { f with
    registers := f.registers ++ (places.map (·.1)).toArray
    blocks := f.blocks.modify c fun B =>
      { B with instructions := B.instructions ++ places.mapIdx fun i place => .load (f.registers.size + i) place.2 place.1 } }

variable (f : Function) (c : BlockId) (places : List (Ty × Value))

theorem reads_nil : f.reads c [] = f := by
  simp [reads, show (fun B : Block => B) = id from rfl]

theorem size_reads : (f.reads c places).registers.size = f.registers.size + places.length := by
  simp [reads]

theorem reads_reads (more : List (Ty × Value)) : (f.reads c places).reads c more = f.reads c (places ++ more) := by
  have hoffset : ∀ i, f.registers.size + (i + places.length) = f.registers.size + places.length + i := by omega
  simp [reads, List.modify_modify_eq, List.mapIdx_append, Function.comp_def, hoffset]

theorem block?_reads {C : Block} (hC : f.block? c = some C) :
    ∃ row, (f.reads c places).block? c = some { C with instructions := C.instructions ++ row } := by
  have hC : f.blocks[c]? = some C := hC
  simp [reads, block?, hC]

end IR.Function

/-! ## Arguments -/

theorem TypeTable.accepts_eq (t : TypeTable) (source target : TypeId) : t.accepts source target = t.alike source target := by
  unfold accepts plan?
  by_cases heq : source = target
  · simp [heq, alike]
  · cases halike : t.alike source target <;> simp [heq]

namespace Lowering

variable {α : Type} {w : Workspace} {β : Type}

theorem typesWith_pair {a b : TypeId} (ha : w.types.Has a) (hb : w.types.Has b) : typesWith [a, b] w = .ok w.types w :=
  run_typesWith.mpr ⟨hasTypes_pair ha hb, rfl, rfl⟩

theorem immutableOf_eq_ok {x : TypeId} (hw : w.types.Reached) (hx : w.types.Has x) : immutableOf x w = .ok (w.types.unqualified x) w := by
  have hrun := run_immutableOf.mpr ⟨hasTypes_single hx, rfl, rfl⟩
  rwa [hw.invariant.1.immutableOf_eq hx] at hrun

/-- A value of a type that is alike stays as it is. -/
theorem cast_implicit {x : Operand} {target : TypeId} (hx : w.types.Has x.type) (ht : w.types.Has target)
    (halike : w.types.alike x.type target = true) (loc : Loc) : ∃ y, cast .implicit x target loc w = .ok y w ∧ y.value = x.value := by
  rw [cast, bind_of_ok (typesWith_pair hx ht)]
  unfold TypeTable.plan?
  by_cases heq : x.type = target
  · exact ⟨x, by rw [if_pos heq]; rfl, rfl⟩
  · exact ⟨{ type := target, value := x.value }, by rw [if_neg heq, if_pos halike]; rfl, rfl⟩

/-- A step refuses an argument, which it names by its position. -/
def Refuses (step : Lowering α) (w : Workspace) (loc : Loc) (position : Nat) : Prop :=
  ∃ mode type got w', step w = .error (.mismatch (.argument mode type position) got loc) w'

theorem refuses_bind {step : Lowering α} {next : α → Lowering β} {a : α} {w' : Workspace} {loc : Loc} {position : Nat}
    (hstep : step w = .ok a w') (h : Refuses (next a) w' loc position) : Refuses (step >>= next) w loc position := by
  obtain ⟨mode, type, got, w'', h⟩ := h
  exact ⟨mode, type, got, w'', (bind_of_ok hstep).trans h⟩

theorem Refuses.bind {step : Lowering α} {loc : Loc} {position : Nat} (h : Refuses step w loc position) (next : α → Lowering β) :
    Refuses (step >>= next) w loc position := by
  obtain ⟨mode, type, got, w', h⟩ := h
  exact ⟨mode, type, got, w', bind_of_error h⟩

theorem refuses_mismatch {param got : TypeId} (hparam : w.types.Has param) (hgot : w.types.Has got)
    (mode : Option PassMode) (position : Nat) (loc : Loc) (next : α → Lowering β) :
    Refuses (do next (← mismatch (.argument mode (← nameOf param) position) got loc)) w loc position := by
  refine ⟨mode, w.types.nameOf param, .type (w.types.nameOf got), w, ?_⟩
  rw [bind_of_ok (run_nameOf.mpr ⟨hasTypes_single hparam, rfl, rfl⟩)]
  refine bind_of_error ?_
  rw [mismatch, bind_of_ok (run_nameOf.mpr ⟨hasTypes_single hgot, rfl, rfl⟩)]
  rfl

end Lowering

namespace Family

open Lowering

variable {w : Workspace} {f : Function} {c : BlockId} {C : Block} {arg : Operand} {args : List Operand} {param : TypeId × PassMode}
  {params : List (TypeId × PassMode)}

/-- The workspace after some places were read. -/
def afterReads (w : Workspace) (f : Function) (c : BlockId) (places : List (Ty × Value)) : Workspace :=
  { w with builder := w.builder.update (f.reads c places) }

theorem afterReads_nil (hcursor : w.builder.Cursor f c C) : afterReads w f c [] = w := by
  rw [afterReads, f.reads_nil, IR.Builder.update_self hcursor.function]

theorem afterReads_afterReads (places more : List (Ty × Value)) :
    afterReads (afterReads w f c places) (f.reads c places) c more = afterReads w f c (places ++ more) := by
  simp only [afterReads, IR.Builder.update_update, f.reads_reads]

section

variable (hw : w.types.Reached) (hcursor : w.builder.Cursor f c C) (hopen : C.terminator = none) (harg : w.types.Has arg.type)
include hw hcursor hopen harg

/-- An argument that is not passed by its address is read if it is a place. Its type stays alike. -/
theorem exists_read (hmode : param.2 ≠ .ref) : ∃ y, Lowering.read arg w = .ok y (afterReads w f c (w.types.readings [param] [arg])) ∧
    w.types.Has y.type ∧ w.types.core y.type = w.types.core arg.type ∧ [y.value] = passed f.registers.size [param] [arg] := by
  have hread : arg.isRead param = arg.isPlace := by simp [Operand.isRead, hmode]
  simp only [TypeTable.readings, passed, hread, List.append_nil]
  cases hplace : arg.isPlace with
  | false =>
    refine ⟨arg, ?_, harg, rfl, rfl⟩
    rw [Lowering.read, hplace]
    exact congrArg (EStateM.Result.ok _) (afterReads_nil hcursor).symm
  | true =>
    obtain ⟨hlt, -⟩ := hw.invariant.1.paired.unqualified harg
    have hload := IR.Build.define_eq hcursor hopen (w.types.ir (w.types.unqualified arg.type))
      (.load · arg.value (w.types.ir (w.types.unqualified arg.type)))
    refine ⟨{ type := w.types.unqualified arg.type, value := .register f.registers.size }, ?_, hlt, hw.invariant.1.core_unqualified harg, rfl⟩
    rw [Lowering.read, hplace]
    refine (bind_of_ok (immutableOf_eq_ok hw harg)).trans ((bind_of_ok (run_irOf.mpr ⟨hasTypes_single hlt, rfl, rfl⟩)).trans ?_)
    exact bind_of_ok (run_build.mpr ⟨_, hload, rfl⟩)

variable (hparam : w.types.Has param.1) (position : Nat) (loc : Loc)
include hparam

/-- An argument that its parameter admits is passed, after it was read if need be. -/
theorem argument_eq (h : w.types.Admits param arg) : ∃ v, argument arg param.1 param.2 position loc w =
    .ok v (afterReads w f c (w.types.readings [param] [arg])) ∧ [v] = passed f.registers.size [param] [arg] := by
  obtain ⟨halike, hplace⟩ := h
  unfold argument
  by_cases hmode : param.2 = .ref
  · obtain ⟨hplace, hmutable⟩ := hplace hmode
    have hread : arg.isRead param = false := by simp [Operand.isRead, hmode]
    refine ⟨arg.value, ?_, by simp [passed, hread]⟩
    simp only [TypeTable.readings, hread]
    rw [if_pos hmode, bind_of_ok (typesWith_pair harg hparam), hplace, hmutable, halike]
    exact congrArg (EStateM.Result.ok _) (afterReads_nil hcursor).symm
  · obtain ⟨y, hread, hlt, hcore, hvalue⟩ := exists_read hw hcursor hopen harg hmode
    have halike' : w.types.alike y.type param.1 = true := by rwa [TypeTable.alike, hcore]
    obtain ⟨z, hcast, hz⟩ := cast_implicit (w := afterReads w f c _) hlt hparam halike' loc
    refine ⟨z.value, ?_, by rw [hz, hvalue]⟩
    rw [if_neg hmode, bind_of_ok hread, bind_of_ok (typesWith_pair (w := afterReads w f c _) hlt hparam), TypeTable.accepts_eq,
      show (afterReads w f c _).types.alike y.type param.1 = true from halike']
    exact bind_of_ok hcast

/-- An argument that its parameter does not admit is refused. -/
theorem refuses_argument (h : ¬w.types.Admits param arg) : Refuses (argument arg param.1 param.2 position loc) w loc position := by
  unfold argument
  by_cases hmode : param.2 = .ref
  · have hrefused : (!arg.isPlace || !arg.mutable || !w.types.alike arg.type param.1) = true := by
      by_contra hrefused
      simp only [Bool.or_eq_true, Bool.not_eq_true', not_or, Bool.not_eq_false] at hrefused
      exact h ⟨hrefused.2, fun _ => hrefused.1⟩
    rw [if_pos hmode]
    refine refuses_bind (typesWith_pair harg hparam) ?_
    rw [if_pos hrefused]
    exact refuses_mismatch hparam harg _ position loc _
  · obtain ⟨y, hread, hlt, hcore, -⟩ := exists_read hw hcursor hopen harg hmode
    have hrefused : (!w.types.accepts y.type param.1) = true := by
      rw [TypeTable.accepts_eq, show w.types.alike y.type param.1 = w.types.alike arg.type param.1 by rw [TypeTable.alike, hcore]; rfl]
      simpa [TypeTable.Admits, hmode] using h
    rw [if_neg hmode]
    refine refuses_bind hread (refuses_bind (typesWith_pair (w := afterReads w f c _) hlt hparam) ?_)
    rw [if_pos (show (!(afterReads w f c _).types.accepts y.type param.1) = true from hrefused)]
    exact refuses_mismatch (w := afterReads w f c _) hparam hlt _ position loc _

end

variable (hw : w.types.Reached) (hcursor : w.builder.Cursor f c C) (hopen : C.terminator = none)
  (hargs : ∀ arg ∈ args, w.types.Has arg.type) (hparams : ∀ param ∈ params, w.types.Has param.1)
include hw hcursor hopen hargs hparams

/-- Arguments that their parameters admit are passed; of others, the first one that is not admitted is refused. -/
theorem arguments_cases (hlength : params.length = args.length) (position : Nat) (loc : Loc) :
    (List.Forall₂ w.types.Admits params args ∧ arguments loc position args params w =
        .ok (passed f.registers.size params args) (afterReads w f c (w.types.readings params args))) ∨
      ∃ k, w.types.FirstRefused params args k ∧ Refuses (arguments loc position args params) w loc (position + k) := by
  induction params generalizing args w f C position with
  | nil =>
    obtain rfl := List.length_eq_zero_iff.mp hlength.symm
    exact .inl ⟨.nil, congrArg (EStateM.Result.ok _) (afterReads_nil hcursor).symm⟩
  | cons param params ih =>
    obtain ⟨arg, args, rfl⟩ := List.exists_cons_of_length_eq_add_one hlength.symm
    obtain ⟨harg, hargs⟩ := List.forall_mem_cons.mp hargs
    obtain ⟨hparam, hparams⟩ := List.forall_mem_cons.mp hparams
    by_cases hadmits : w.types.Admits param arg
    · obtain ⟨v, hv, hvalue⟩ := argument_eq hw hcursor hopen harg hparam position loc hadmits
      obtain ⟨row, hC⟩ := f.block?_reads c (w.types.readings [param] [arg]) hcursor.here
      rcases ih (w := afterReads w f c _) hw (hcursor.update hC) hopen hargs hparams (Nat.succ.inj hlength) (position + 1) with
        ⟨h, hrest⟩ | ⟨k, hk, hrefuses⟩
      · refine .inl ⟨.cons hadmits h, ?_⟩
        rw [arguments, bind_of_ok hv, bind_of_ok hrest]
        have hvalues : v :: passed (f.reads c (w.types.readings [param] [arg])).registers.size params args =
            passed f.registers.size (param :: params) (arg :: args) := by
          rw [f.size_reads]
          cases hread : arg.isRead param <;> simp_all [passed, TypeTable.readings]
        rw [← hvalues]
        refine congrArg (EStateM.Result.ok _) ?_
        have hreads : w.types.readings [param] [arg] ++ w.types.readings params args = w.types.readings (param :: params) (arg :: args) := by
          simp [TypeTable.readings]
        exact (afterReads_afterReads _ _).trans (congrArg (afterReads w f c) hreads)
      · refine .inr ⟨k + 1, ⟨.cons hadmits hk.1, hk.2⟩, ?_⟩
        rw [Nat.add_comm k, ← Nat.add_assoc]
        exact refuses_bind hv (hrefuses.bind _)
    · exact .inr ⟨0, ⟨.nil, param, arg, rfl, rfl, hadmits⟩, (refuses_argument hw hcursor hopen harg hparam position loc hadmits).bind _⟩

end Family

/-! ## The call -/

/-- The register that receives the result of a call. -/
def IR.Function.callDest (f : Function) (ret : Ty) : Option Register :=
  if ret = .void then none else some f.registers.size

/-- Calls a function at the end of a block. The result, if there is one, goes to a new register. -/
def IR.Function.calls (f : Function) (c : BlockId) (name : String) (values : List Value) (ret : Ty) : Function :=
  (if ret = .void then f else (f.addRegister ret).2).emit c (.call (f.callDest ret) name values ret)

theorem IR.Build.call_eq {b : IR.Builder} {f : Function} {c : BlockId} {C : Block} (hc : b.Cursor f c C) (hopen : C.terminator = none)
    (name : String) (values : List Value) (ret : Ty) : IR.Build.call name values ret b =
      .ok (((f.callDest ret).map Value.register).getD .unit) (b.update (f.calls c name values ret)) := by
  unfold IR.Build.call Function.calls Function.callDest
  by_cases hret : ret = .void
  · simp only [hret, if_true]
    exact bind_of_ok (IR.Build.emit_eq hc hopen _)
  · simp only [hret, if_false]
    exact IR.Build.define_eq hc hopen _ _

namespace Family

open Lowering

/-- What a refused call says: how many arguments there should be, or which of them is the first that is not admitted. -/
def Complains (t : TypeTable) (name : String) (params : List (TypeId × PassMode)) (args : List Operand) (loc : Loc) (fault : Fault) : Prop :=
  params.length ≠ args.length ∧ fault = .mismatch (.arguments params.length name) (.arguments args.length) loc ∨
  ∃ k mode type got, t.FirstRefused params args k ∧ fault = .mismatch (.argument mode type (k + 1)) got loc

theorem Complains.not_admitted {t : TypeTable} {name : String} {params : List (TypeId × PassMode)} {args : List Operand} {loc : Loc}
    {fault : Fault} (h : Complains t name params args loc fault) : ¬List.Forall₂ t.Admits params args := by
  intro hall
  rcases h with ⟨hlength, -⟩ | ⟨_, _, _, _, ⟨-, param, arg, hparam, harg, hno⟩, -⟩
  · exact hlength hall.length_eq
  · obtain ⟨hk, rfl⟩ := List.getElem?_eq_some_iff.mp hparam
    obtain ⟨hk', rfl⟩ := List.getElem?_eq_some_iff.mp harg
    exact hno (hall.get hk hk')

section

variable {w : Workspace} {callee : Operand} {name : String} {s : Signature} {args : List Operand} {f : Function} {c : BlockId} {C : Block}
  (hw : w.types.Reached) (hvalue : callee.value = .function name) (hcallee : w.types.Has callee.type)
  (hs : (w.types.entry callee.type).signature? = some s) (hargs : ∀ arg ∈ args, w.types.Has arg.type)
  (hcursor : w.builder.Cursor f c C) (hopen : C.terminator = none) (loc : Loc)
include hw hcallee hs

/-- The types of a signature are in the table. -/
theorem lt_of_mem_types : ∀ x ∈ s.types, w.types.Has x := by
  obtain ⟨e, he⟩ := TypeTable.exists_entry hcallee
  rw [TypeTable.entry_eq he, TypeTable.signature?_eq_some] at hs
  exact fun x hx => Nat.lt_trans ((hw.parts_lt he).2 s hs x hx) hcallee

include hvalue hargs hcursor hopen

/-- A call succeeds with arguments that are admitted, or complains. -/
theorem call_cases :
    let reading := f.reads c (w.types.readings s.params args)
    (List.Forall₂ w.types.Admits s.params args ∧ call callee args loc w =
      .ok { type := w.types.unqualified s.ret, value := ((reading.callDest (w.types.ir s.ret)).map Value.register).getD .unit }
        { w with builder := w.builder.update (reading.calls c name (passed f.registers.size s.params args) (w.types.ir s.ret)) }) ∨
    ∃ fault w', call callee args loc w = .error fault w' ∧ Complains w.types name s.params args loc fault := by
  intro reading
  obtain ⟨hret, hparams⟩ := List.forall_mem_cons.mp (lt_of_mem_types hw hcallee hs)
  have htypes : typesWith [callee.type] w = .ok w.types w := run_typesWith.mpr ⟨hasTypes_single hcallee, rfl, rfl⟩
  simp only [call, hvalue, bind_of_ok htypes, hs]
  by_cases hlength : s.params.length = args.length
  · rcases arguments_cases hw hcursor hopen hargs (fun param hparam => hparams param.1 (List.mem_map_of_mem hparam)) hlength 1 loc with
      ⟨h, hvalues⟩ | ⟨k, hk, mode, type, got, w', hrefuses⟩
    · obtain ⟨row, hC⟩ := f.block?_reads c (w.types.readings s.params args) hcursor.here
      have hbuild := IR.Build.call_eq (hcursor.update hC) hopen name (passed f.registers.size s.params args) (w.types.ir s.ret)
      rw [IR.Builder.update_update] at hbuild
      have hir : irOf s.ret (afterReads w f c (w.types.readings s.params args)) = .ok (w.types.ir s.ret) _ :=
        run_irOf.mpr ⟨hasTypes_single (w := afterReads w f c _) hret, rfl, rfl⟩
      refine .inl ⟨h, ?_⟩
      rw [if_neg (not_not.mpr hlength.symm)]
      exact (bind_of_ok hvalues).trans ((bind_of_ok hir).trans ((bind_of_ok (run_build.mpr ⟨_, hbuild, rfl⟩)).trans
        (bind_of_ok (immutableOf_eq_ok (w := { w with builder := w.builder.update _ }) hw hret))))
    · rw [Nat.add_comm] at hrefuses
      refine .inr ⟨_, w', ?_, .inr ⟨k, mode, type, got, hk, rfl⟩⟩
      rw [if_neg (not_not.mpr hlength.symm)]
      exact bind_of_error hrefuses
  · refine .inr ⟨_, w, ?_, .inl ⟨hlength, rfl⟩⟩
    rw [if_pos (Ne.symm hlength)]
    rfl

end

end Family

/-- A call is accepted exactly if its arguments are those that the parameters admit, one for each. Then the places that are not passed by
their address are read one after the other, and the function is called with what was read and the rest as it was given. The result is of
the plain return type. Else the types do not match: either the number of arguments is wrong, or the first argument that is not admitted is
named, counted from one. -/
theorem call_exact {w : Workspace} (hw : w.types.Reached) {callee : Operand} {name : String} (hvalue : callee.value = .function name)
    (hcallee : callee.type < w.types.entries.length) {s : Signature} (hs : (w.types.entry callee.type).signature? = some s)
    {args : List Operand} (hargs : ∀ arg ∈ args, arg.type < w.types.entries.length) {f : Function} {c : BlockId} {C : Block}
    (hcursor : w.builder.Cursor f c C) (hopen : C.terminator = none) (loc : Loc) :
    let result := Family.callable.nary .call (callee :: args) loc w
    let reading := f.reads c (w.types.readings s.params args)
    ((∃ y w', result = .ok y w') ↔ List.Forall₂ w.types.Admits s.params args) ∧
    (∀ y w', result = .ok y w' →
      w' = { w with builder := w.builder.update (reading.calls c name (passed f.registers.size s.params args) (w.types.ir s.ret)) } ∧
      y = { type := w.types.unqualified s.ret, value := ((reading.callDest (w.types.ir s.ret)).map Value.register).getD .unit }) ∧
    ∀ fault w', result = .error fault w' → Family.Complains w.types name s.params args loc fault := by
  intro result reading
  rcases Family.call_cases hw hvalue hcallee hs hargs hcursor hopen loc with ⟨h, hok⟩ | ⟨fault, w', herror, hcomplains⟩
  · have hok : result = _ := hok
    refine ⟨⟨fun _ => h, fun _ => ⟨_, _, hok⟩⟩, fun y w' hy => ?_, fun fault w' hfault => ?_⟩
    · cases hok.symm.trans hy
      exact ⟨rfl, rfl⟩
    · cases hok.symm.trans hfault
  · have herror : result = .error fault w' := herror
    refine ⟨⟨fun ⟨y, w'', hy⟩ => ?_, fun h => absurd h hcomplains.not_admitted⟩, fun y w'' hy => ?_, fun fault' w'' hfault => ?_⟩
    · cases herror.symm.trans hy
    · cases herror.symm.trans hy
    · cases herror.symm.trans hfault
      exact hcomplains

/-- A mutable `i32` may be passed to a parameter `ref mut Word` of a function, a constant may not. -/
theorem call_exact_word :
    let w : Workspace :=
      { types := .operationTable
        builder := { module := { name := "m", functions := [{ name := "f", params := [], ret := .i32, blocks := [{ id := 0, label := "entry" }] }] }
                     function := some 0, block := some 0 } }
    let called := fun arg => Family.callable.nary .call [{ type := 32, value := .function "op" }, arg] .unknown w
    (∃ y w', called (.place (TypeTable.primitive .i32 + 1) (.global "g") true) = .ok y w') ∧
      ¬∃ y w', called (.literal (TypeTable.primitive .i32) (.int 1)) = .ok y w' := by
  intro w called
  have hexact := fun (arg : Operand) (harg : arg.type < w.types.entries.length) => @call_exact w TypeTable.reached_operationTable
    { type := 32, value := .function "op" } "op" rfl (by decide +kernel) ⟨30, [(31, .ref)]⟩ (by decide +kernel) [arg]
    (List.forall_mem_singleton.mpr harg) _ _ _ ⟨rfl, rfl, rfl⟩ rfl .unknown
  refine ⟨(hexact _ (by decide +kernel)).1.mpr (.cons ⟨by decide +kernel, fun _ => ⟨rfl, rfl⟩⟩ .nil), fun hok => ?_⟩
  cases (hexact _ (by decide +kernel)).1.mp hok with
  | cons hadmits _ => cases (hadmits.2 rfl).1

end Ember
