import Ember.Proofs.Compile
import Ember.Proofs.Machine.Typed

/-!
# Calls on the machine of a compiled module

A session is a sequence of calls on one machine. Whatever the source and the level of optimization, a session of well-typed calls
never leaves types: every call gives a value of the type of its result, or stops for a reason that typing cannot rule out
(`outcome_typed`). And no call changes a global that was not declared mutable, at any of its steps (`constants_hold`).
-/

namespace Ember

open IR

/-! ## What a source says of its functions -/

namespace SourceFile

variable {file : SourceFile} {debugInfo : Bool} {m : IR.Module}

/-- The signature of a function of a source file: what its parameters take, and the type of its result. -/
def signature? (file : SourceFile) (debugInfo : Bool) (name : String) : Option (List Grade × Ty) :=
  match Node.parse file.contents with
  | .error _ => none
  | .ok n =>
    match (Lowering.unit n).run (file.workspace debugInfo) with
    | .error _ _ => none
    | .ok _ w => do
      let symbol ← w.scopes.find? name
      let signature ← (w.types.entry symbol.operand.type).signature?
      return (signature.grades w.types, w.types.ir signature.ret)

/-- The module of a source file, as it was written or optimized at some level. -/
def Compiles (file : SourceFile) (debugInfo : Bool) (m : IR.Module) : Prop :=
  (Compilation.lower file debugInfo).result.1 = .ok m ∨ ∃ level, (Compilation.optimize file debugInfo level).result.1 = .ok m

/-- What is known of the module of a source file: it is well formed for an interface that the source declares, which has all globals
of the source. -/
structure Yields (file : SourceFile) (debugInfo : Bool) (I : Interface) (m : IR.Module) : Prop where
  wellFormed : m.WellFormed I
  signature : ∀ name s, I.signature? name = some s → file.signature? debugInfo name = some s
  globals : ∀ n, Node.parse file.contents = .ok n → ∀ item ∈ n.items, ∀ binder, item.globalBinder? = some binder →
    ∃ type, I.cell? binder.name = some (type, binder.mutable)

/-- The module of a source file is what lowering its tree comes to. -/
theorem exists_lowered (h : (Compilation.lower file debugInfo).result.1 = .ok m) :
    ∃ n I w, Node.parse file.contents = .ok n ∧ (Lowering.unit n).run (file.workspace debugInfo) = .ok () w ∧
      Lowered n I w ∧ w.builder.module = m := by
  rw [Compilation.result_lower] at h
  cases hn : Node.parse file.contents with
  | error f =>
    rw [hn] at h
    cases h
  | ok n =>
    rw [hn] at h
    have h : (n.check >>= fun _ => (n.lower file debugInfo).1) = .ok m := h
    cases hc : n.check with
    | error f =>
      rw [hc] at h
      cases h
    | ok u =>
      rw [hc] at h
      have h : (n.lower file debugInfo).1 = .ok m := h
      unfold Node.lower at h
      split at h
      · rename_i w hrun
        cases h
        obtain ⟨I, hI⟩ := (lowered_unit (Node.isItem_of_parse hn) file debugInfo).2 _ w hrun
        exact ⟨n, I, w, rfl, hrun, hI, rfl⟩
      · cases h

theorem yields_lower (h : (Compilation.lower file debugInfo).result.1 = .ok m) : ∃ I, file.Yields debugInfo I m := by
  obtain ⟨n, I, w, hn, hrun, hI, rfl⟩ := exists_lowered h
  refine ⟨I, hI.staged.module, fun name s hs => ?_, fun n' hn' => ?_⟩
  · obtain ⟨symbol, hsymbol, hfun⟩ := hI.named name s hs
    obtain ⟨scope, hscopes, hnames⟩ := hI.staged.scope
    obtain ⟨hmem, hname⟩ := Scopes.mem_of_find? (hscopes ▸ hsymbol)
    obtain ⟨-, -, sig, hsig, hI'⟩ := (hnames symbol hmem).function hfun
    rw [hname, hs] at hI'
    cases hI'
    simp [signature?, hn, hrun, hsymbol, hsig]
  · cases hn.symm.trans hn'
    exact hI.globals

theorem Compiles.yields (h : file.Compiles debugInfo m) : ∃ I, file.Yields debugInfo I m := by
  rcases h with h | ⟨level, h⟩
  · exact yields_lower h
  · rw [Compilation.result_optimize] at h
    cases hl : (Compilation.lower file debugInfo).result.1 with
    | error f =>
      rw [hl] at h
      cases h
    | ok lowered =>
      obtain ⟨I, hI⟩ := yields_lower hl
      obtain ⟨hfault, J, hJ, hnarrows⟩ := hI.wellFormed.optimize level
      rw [hl] at h
      simp only [Bind.bind, Except.bind, hfault] at h
      cases h
      exact ⟨J, hJ, fun name s hs => hI.signature name s (hnarrows.signature name s hs), hnarrows.cell ▸ hI.globals⟩

end SourceFile

/-- Calls on one machine, one after the other, each with what is accepted at that time. The machine may get new fuel between them. -/
inductive Session (m : IR.Module) (accepts : Machine → IR.Function → List Datum → Prop) : Machine → Prop where
  | start (fuel : Nat) : Session m accepts (.ofModule m fuel)
  | call {machine : Machine} {f : IR.Function} {args : List Datum} : Session m accepts machine → f ∈ m.functions →
      accepts machine f args → Session m accepts (machine.call f.name args).2
  | refuel {machine : Machine} (fuel : Nat) : Session m accepts machine → Session m accepts { machine with fuel }

namespace Session

variable {file : SourceFile} {debugInfo : Bool} {m : IR.Module} {machine : Machine}

/-- A call keeps the module. -/
theorem module_call (machine : Machine) (name : String) (args : List Datum) : (machine.call name args).2.module = machine.module := by
  obtain ⟨m, memory, fuel⟩ := machine
  unfold Machine.call
  dsimp only
  split <;> rfl

theorem module_eq {accepts : Machine → IR.Function → List Datum → Prop} (h : Session m accepts machine) : machine.module = m := by
  induction h with
  | start fuel => rfl
  | call _ _ _ ih => exact (module_call _ _ _).trans ih
  | refuel fuel _ ih => exact ih

/-- A source with a global that may be assigned and one that may not, and with a function that changes what it is given by reference. -/
def counter : SourceFile where
  path := "a.em"
  contents := "var g: i32 = 1; let k: i32 = 5;
    inline def add(ref x: i32, y: i32): i32 \x7b x = x + y; return x; \x7d
    def bump(ref x: i32): i32 \x7b return add(x, k); \x7d"

theorem counter_compiles : ∃ m, counter.Compiles false m ∧ m.globals = [⟨"g", .i32, .int 1, true⟩, ⟨"k", .i32, .int 5, false⟩] ∧
    (∃ f ∈ m.functions, f.name = "bump" ∧ f.ret = .i32) ∧ counter.signature? false "bump" = some ([.address .i32], .i32) ∧
    ((Machine.ofModule m 100).call "bump" [.pointer 0]).1 = .ok (.constant (.int 6)) := by
  have hrun : (match (Compilation.optimize counter false .default).result.1 with
      | .ok m => decide (m.globals = [⟨"g", .i32, .int 1, true⟩, ⟨"k", .i32, .int 5, false⟩] ∧
          (∃ f ∈ m.functions, f.name = "bump" ∧ f.ret = .i32) ∧ counter.signature? false "bump" = some ([.address .i32], .i32) ∧
          ((Machine.ofModule m 100).call "bump" [.pointer 0]).1.toOption = some (.constant (.int 6)))
      | .error _ => false) = true := by decide +kernel
  split at hrun
  · rename_i m hm
    obtain ⟨hglobals, hf, hsig, hcall⟩ := of_decide_eq_true hrun
    refine ⟨m, .inr ⟨_, hm⟩, hglobals, hf, hsig, ?_⟩
    cases hresult : ((Machine.ofModule m 100).call "bump" [.pointer 0]).1 with
    | ok d =>
      rw [hresult] at hcall
      cases hcall
      rfl
    | error crash =>
      rw [hresult] at hcall
      cases hcall
  · cases hrun

/-! ## Types -/

/-- The types of the cells of memory: every global has its own, and what every cell holds is of its type. -/
structure Accords (machine : Machine) (cells : List Ty) : Prop where
  globals : machine.module.globals.map (·.type) <+: cells
  holds : (Layout.mk cells fun _ => none).Holds machine.memory

/-- The arguments are what the source says that the function takes: values of their types, and for a `ref` the address of a cell of its
type. -/
def WellTyped (file : SourceFile) (debugInfo : Bool) (machine : Machine) (f : IR.Function) (args : List Datum) : Prop :=
  ∃ grades, file.signature? debugInfo f.name = some (grades, f.ret) ∧
    ∃ cells, Accords machine cells ∧ List.Forall₂ (Datum.Has (Layout.mk cells fun _ => none)) args grades

/-- A typed memory suits the module. -/
theorem Accords.suits {cells : List Ty} (h : Accords machine cells) : (Layout.mk cells fun _ => none).Suits machine.module where
  globals := fun cell g hg => by
    obtain ⟨more, rfl⟩ := h.globals
    have hlt : cell < (machine.module.globals.map (·.type)).length := by
      simpa using (List.getElem?_eq_some_iff.mp hg).1
    rw [List.getElem?_append_left hlt, List.getElem?_map, hg]
    rfl
  mutable := fun _ _ _ _ => rfl

variable {I : Interface} {more : List Ty} {memory : Memory}

section

variable {L : Layout} {f : IR.Function} {grades : List Grade} {args : List Datum} (hI : machine.module.WellFormed I)
  (hmem : L.Holds machine.memory) (hsig : I.signature? f.name = some (grades, f.ret)) (hargs : List.Forall₂ (Datum.Has L) args grades)
include hI hmem hsig hargs

theorem running_enter : Meets (machine.module.enter f.name args none 0) machine.memory
    (fun frame memory => Running L I f.ret [frame] memory) L.Stops := by
  refine (meets_enter hmem hI hsig hargs none 0).mono (fun frame memory' ⟨hmemory, hframe, _, hret⟩ => ?_) fun _ _ => id
  subst hmemory
  exact running_of_typed hmem ⟨hframe, hret⟩

/-- A call with well-typed arguments gives a typed result and leaves a typed memory. -/
theorem typed_call (hL : L.Suits machine.module) : (match (machine.call f.name args).1 with
      | .ok d => d.Fits f.ret
      | .error crash => crash.Ordinary) ∧ ∃ more, (L.grow more).Holds (machine.call f.name args).2.memory := by
  have := Machine.call_meets _ (Finished L f.ret) _ (running_enter hI hmem hsig hargs)
    (fun stack memory => running_step hI hL) fun _ _ ⟨more, hmem, _⟩ => ⟨trivial, more, hmem⟩
  cases hcall : machine.call f.name args with
  | mk result machine' =>
    rw [hcall] at this
    cases result with
    | ok d | error crash => exact this

end

theorem Accords.call (hI : machine.module.WellFormed I) {cells : List Ty} (h : Accords machine cells) {f : IR.Function}
    {grades : List Grade} (hsig : I.signature? f.name = some (grades, f.ret)) {args : List Datum}
    (hargs : List.Forall₂ (Datum.Has (Layout.mk cells fun _ => none)) args grades) : (match (machine.call f.name args).1 with
      | .ok d => d.Fits f.ret
      | .error crash => crash.Ordinary) ∧ ∃ cells', Accords (machine.call f.name args).2 cells' := by
  obtain ⟨houtcome, more, hmem⟩ := typed_call hI h.holds hsig hargs h.suits
  exact ⟨houtcome, _, module_call machine f.name args ▸ h.globals.trans (List.prefix_append cells _), hmem⟩

/-- The memory in which a program starts is typed. -/
theorem accords_ofModule (hI : m.WellFormed I) (fuel : Nat) : Accords (.ofModule m fuel) (m.globals.map (·.type)) where
  globals := List.prefix_rfl
  holds := by
    refine ⟨by simp [Machine.ofModule], fun cell t d ht hd => ?_, nofun⟩
    simp only [Machine.ofModule, List.getElem?_toArray, List.getElem?_map, Option.map_eq_some_iff] at ht hd
    obtain ⟨g, hg, rfl⟩ := ht
    obtain ⟨g', hg', rfl⟩ := hd
    cases hg.symm.trans hg'
    exact (hI.globals g (List.mem_of_getElem? hg)).2

/-- Memory stays typed all through a session. -/
theorem accords (hm : file.Compiles debugInfo m) (h : Session m (WellTyped file debugInfo) machine) : ∃ cells, Accords machine cells := by
  obtain ⟨I, hI⟩ := hm.yields
  induction h with
  | start fuel => exact ⟨_, accords_ofModule hI.wellFormed fuel⟩
  | @call machine f args hsession hf hargs _ =>
    obtain ⟨grades, hsig, cells, haccords, hargs⟩ := hargs
    obtain ⟨grades', hsig', -⟩ := hI.wellFormed.signed f hf
    cases hsig.symm.trans (hI.signature _ _ hsig')
    exact (haccords.call (hsession.module_eq ▸ hI.wellFormed) hsig' hargs).2
  | refuel fuel _ ih =>
    obtain ⟨cells, haccords⟩ := ih
    exact ⟨cells, haccords.globals, haccords.holds⟩

/-- Type soundness of the module of a source, optimized or not. Memory is typed after any session of well-typed calls, and every function
has a signature by which to call it. Called by it while memory is typed, whatever was called before and with any fuel, the function
returns a value of the type of its result or nothing defined, or it stops for an ordinary reason: nothing is ever malformed, unreachable
or unknown. -/
theorem outcome_typed (hm : file.Compiles debugInfo m) :
    (∀ machine, Session m (WellTyped file debugInfo) machine → machine.module = m ∧ ∃ cells, Accords machine cells) ∧
    ∀ f ∈ m.functions, (∃ grades, file.signature? debugInfo f.name = some (grades, f.ret) ∧ grades.length = f.params.length) ∧
      ∀ machine, machine.module = m → ∀ args, WellTyped file debugInfo machine f args →
        match (machine.call f.name args).1 with
        | .ok d => d.Fits f.ret
        | .error crash => crash.Ordinary := by
  refine ⟨fun machine h => ⟨h.module_eq, accords hm h⟩, fun f hf => ?_⟩
  obtain ⟨I, hI⟩ := hm.yields
  obtain ⟨grades, hsig, hlength⟩ := hI.wellFormed.signed f hf
  refine ⟨⟨grades, hI.signature _ _ hsig, hlength⟩, fun machine hmodule args ⟨grades', hsig', cells, haccords, hargs⟩ => ?_⟩
  cases hsig'.symm.trans (hI.signature _ _ hsig)
  exact (haccords.call (hmodule ▸ hI.wellFormed) hsig hargs).1

/-- A second call by reference, behind a first one that changed the cell. -/
theorem outcome_typed_counter : ∃ m f, counter.Compiles false m ∧ f ∈ m.functions ∧
    let machine := ((Machine.ofModule m 100).call f.name [.pointer 0]).2
    Session m (WellTyped counter false) machine ∧ WellTyped counter false machine f [.pointer 0] ∧
      match (machine.call f.name [.pointer 0]).1 with
      | .ok d => d.Fits f.ret
      | .error crash => crash.Ordinary := by
  obtain ⟨m, hm, hglobals, ⟨f, hf, hname, hret⟩, hsig, -⟩ := counter_compiles
  have hargs : ∀ {machine : Machine}, machine.module = m → (∃ cells, Accords machine cells) →
      WellTyped counter false machine f [.pointer 0] := by
    rintro machine rfl ⟨cells, haccords⟩
    obtain ⟨more, hcells⟩ := haccords.globals
    rw [hglobals] at hcells
    exact ⟨[.address .i32], by rw [hname, hret]; exact hsig, cells, haccords, .cons ⟨0, rfl, by simp [← hcells], rfl⟩ .nil⟩
  have hstart : Session m (WellTyped counter false) (.ofModule m 100) := .start 100
  have hsession := hstart.call hf (hargs rfl (accords hm hstart))
  have hsecond := hargs hsession.module_eq (accords hm hsession)
  exact ⟨m, f, hm, hf, hsession, hsecond, ((outcome_typed hm).2 f hf).2 _ hsession.module_eq _ hsecond⟩

/-! ## Globals that are not mutable -/

/-- The cells of the globals; those of globals that may not be assigned never change. -/
def layout (m : IR.Module) : Layout where
  cells := m.globals.map (·.type)
  fixed cell := m.globals[cell]?.bind fun g => if g.mutable then none else some (.constant g.init)

/-- The arguments are what the source says that the function takes: values of their types, and for a `ref` the address of a global of its
type that may be assigned. -/
def Passes (file : SourceFile) (debugInfo : Bool) (machine : Machine) (f : IR.Function) (args : List Datum) : Prop :=
  ∃ grades, file.signature? debugInfo f.name = some (grades, f.ret) ∧ List.Forall₂ (Datum.Has (layout machine.module)) args grades

/-- The cells of globals that may not be assigned hold their initial values. -/
def HoldsConstants (m : IR.Module) (memory : Memory) : Prop :=
  ∀ (cell : Nat) g, m.globals[cell]? = some g → g.mutable = false → memory[cell]? = some (.constant g.init)

/-- The cell to which a frame is about to store. -/
def target? (m : IR.Module) (f : Frame) (memory : Memory) : Option Nat :=
  match f.pending with
  | .store pointer _ _ :: rest =>
    match ({ f with pending := rest } : Frame).address m pointer memory with
    | .ok cell _ => some cell
    | .error _ _ => none
  | _ => none

theorem holdsConstants_of_holds (h : ((layout m).grow more).Holds memory) : HoldsConstants m memory := by
  intro cell g hg hmut
  exact h.fixed cell _ (by simp [Layout.grow, layout, hg, hmut])

/-- The layout suits the module. -/
theorem suits_layout (m : IR.Module) : (layout m).Suits m where
  globals := fun cell g hg => by simp [layout, hg]
  mutable := fun cell g hg hmut => by simp [layout, hg, hmut]

/-- The memory in which a program starts is laid out so. -/
theorem holds_ofModule (hI : m.WellFormed I) (fuel : Nat) : (layout m).Holds (Machine.ofModule m fuel).memory where
  size := (accords_ofModule hI fuel).holds.size
  typed := (accords_ofModule hI fuel).holds.typed
  fixed := fun cell d hd => by
    obtain ⟨g, hg, hd⟩ := Option.bind_eq_some_iff.mp hd
    split at hd
    · cases hd
    · cases hd
      simp [Machine.ofModule, hg]

/-- A frame of a running program is about to store to a cell only if it may change. -/
theorem fixed_target {L : Layout} (hI : m.WellFormed I) (hL : L.Suits m) (hmem : L.Holds memory) {f : Frame} {γ : Grading}
    (hf : f.Typed L I γ) {cell : Nat} (h : target? m f memory = some cell) : L.fixed cell = none := by
  unfold target? at h
  split at h
  · rename_i pointer value type rest hp
    have hi := hf.mem_instructions (i := .store pointer value type) (by simp [hp])
    have htypes := hf.graded.types _ hi
    obtain ⟨cell', hd, hcell, hfixed⟩ := (hf.ready hp rfl).operand_address hI hL
      (Function.mem_operands hi (by simp [Instruction.operands])) htypes.1
    rw [Frame.address_eq hmem hd hcell] at h
    cases h
    exact hfixed
  · cases h

/-- What holds of a run at every step. -/
def Spared (m : IR.Module) (stack : List Frame) (memory : Memory) : Prop :=
  HoldsConstants m memory ∧
    ∀ f ∈ stack.head?, ∀ cell, target? m f memory = some cell → ∀ g, m.globals[cell]? = some g → g.mutable = true

theorem spared_of_running (hI : m.WellFormed I) {result : Ty} {stack : List Frame}
    (h : Running ((layout m).grow more) I result stack memory) : Spared m stack memory := by
  obtain ⟨more', hmem, hstack⟩ := h
  rw [Layout.grow_grow] at hmem hstack
  refine ⟨holdsConstants_of_holds hmem, fun f hf cell hcell g hg => ?_⟩
  cases stack with
  | nil => cases hf
  | cons f' callers =>
    cases hf
    obtain ⟨⟨γ, hf⟩, -⟩ := hstack
    have hfixed := fixed_target hI ((suits_layout _).grow _) hmem hf hcell
    by_contra hmut
    simp [Layout.grow, layout, hg, hmut] at hfixed

/-- All steps of a call spare the globals that may not be assigned, and memory stays laid out. -/
theorem spared_call (hI : machine.module.WellFormed I)
    (hmem : ((layout machine.module).grow more).Holds machine.memory) {f : IR.Function} {grades : List Grade}
    (hsig : I.signature? f.name = some (grades, f.ret)) {args : List Datum}
    (hargs : List.Forall₂ (Datum.Has (layout machine.module)) args grades) :
    (∀ p ∈ machine.trace f.name args, Spared machine.module p.1 p.2) ∧
      ∃ more', ((layout machine.module).grow more').Holds (machine.call f.name args).2.memory := by
  have hsuits := (suits_layout machine.module).grow more
  have hargs' := hargs.imp fun _ _ hd => hd.grow more
  have hend : ∀ {memory : Memory}, (∃ more', (((layout machine.module).grow more).grow more').Holds memory) →
      Spared machine.module [] memory := fun ⟨_, h⟩ => ⟨holdsConstants_of_holds (Layout.grow_grow .. ▸ h), nofun⟩
  constructor
  · have hframe := running_enter hI hmem hsig hargs'
    unfold Machine.trace
    unfold Meets at hframe
    split
    · rename_i crash memory' heq
      rw [heq] at hframe
      exact List.forall_mem_singleton.mpr (hend hframe.2)
    · rename_i frame memory' heq
      rw [heq] at hframe
      exact Module.trace_meets (fun _ _ => running_step hI hsuits) (fun _ _ => spared_of_running hI) (fun _ _ h => hend h.2)
        (fun _ _ h => hend h.2) _ hframe
  · obtain ⟨-, more', h⟩ := typed_call hI hmem hsig hargs' hsuits
    exact ⟨more ++ more', Layout.grow_grow .. ▸ h⟩

/-- Memory stays laid out all through a session. -/
theorem laid_out (hm : file.Compiles debugInfo m) (h : Session m (Passes file debugInfo) machine) :
    ∃ more, ((layout m).grow more).Holds machine.memory := by
  obtain ⟨I, hI⟩ := hm.yields
  induction h with
  | start fuel => exact ⟨[], by rw [Layout.grow_nil]; exact holds_ofModule hI.wellFormed fuel⟩
  | @call machine f args hsession hf hargs ih =>
    obtain ⟨grades, hsig, hargs⟩ := hargs
    obtain ⟨grades', hsig', -⟩ := hI.wellFormed.signed f hf
    cases hsig.symm.trans (hI.signature _ _ hsig')
    obtain ⟨more, hmem⟩ := ih
    have hmodule := hsession.module_eq
    subst hmodule
    exact (spared_call hI.wellFormed hmem hsig' hargs).2
  | refuel fuel _ ih => exact ih

/-- Globals that were not declared mutable never change. In any session of calls on the module of a source, optimized or not, at every
step of every call, to its end or to a crash: the cells of those globals hold their initial values, and no store is about to be made
to any of them. The globals are those of the source, and as mutable as it says. -/
theorem constants_hold (hm : file.Compiles debugInfo m) (h : Session m (Passes file debugInfo) machine) {f : IR.Function}
    (hf : f ∈ m.functions) {args : List Datum} (hargs : Passes file debugInfo machine f args) :
    (∀ p ∈ machine.trace f.name args, HoldsConstants m p.2 ∧
      ∀ frame ∈ p.1.head?, ∀ cell, target? m frame p.2 = some cell → ∀ g, m.globals[cell]? = some g → g.mutable = true) ∧
    HoldsConstants m (machine.call f.name args).2.memory ∧
    ∀ n, Node.parse file.contents = .ok n → ∀ item ∈ n.items, ∀ binder, item.globalBinder? = some binder →
      ∃ g ∈ m.globals, g.name = binder.name ∧ g.mutable = binder.mutable := by
  obtain ⟨I, hI⟩ := hm.yields
  obtain ⟨more, hmem⟩ := laid_out hm h
  obtain ⟨grades, hsig, hargs⟩ := hargs
  obtain ⟨grades', hsig', -⟩ := hI.wellFormed.signed f hf
  cases hsig.symm.trans (hI.signature _ _ hsig')
  have hmodule := h.module_eq
  subst hmodule
  obtain ⟨hspared, -⟩ := spared_call hI.wellFormed hmem hsig' hargs
  obtain ⟨last, hlast, hmemory⟩ := Option.map_eq_some_iff.mp (machine.getLast?_trace f.name args)
  refine ⟨hspared, hmemory ▸ (hspared last (List.mem_of_getLast? hlast)).1, fun n hn item hitem binder hbinder => ?_⟩
  obtain ⟨type, hcell⟩ := hI.globals n hn item hitem binder hbinder
  obtain ⟨g, hg, hname, -, hmutable⟩ := hI.wellFormed.exists_global hcell
  exact ⟨g, hg, hname, hmutable⟩

/-- A call that stores through a reference that was handed on to an inlined function: the other global keeps its value. -/
theorem constants_hold_counter : ∃ m f, counter.Compiles false m ∧ f ∈ m.functions ∧
    Session m (Passes counter false) (.ofModule m 100) ∧ Passes counter false (.ofModule m 100) f [.pointer 0] ∧
    ((Machine.ofModule m 100).call f.name [.pointer 0]).1 = .ok (.constant (.int 6)) ∧
    ((Machine.ofModule m 100).call f.name [.pointer 0]).2.memory[1]? = some (.constant (.int 5)) := by
  obtain ⟨m, hm, hglobals, ⟨f, hf, hname, hret⟩, hsig, hcall⟩ := counter_compiles
  have hsession : Session m (Passes counter false) (.ofModule m 100) := .start 100
  have hargs : Passes counter false (.ofModule m 100) f [.pointer 0] :=
    ⟨[.address .i32], by rw [hname, hret]; exact hsig, .cons ⟨0, rfl, by simp [layout, Machine.ofModule, hglobals],
      by simp [layout, Machine.ofModule, hglobals]⟩ .nil⟩
  have hconstants := (constants_hold hm hsession hf hargs).2.1
  exact ⟨m, f, hm, hf, hsession, hargs, hname ▸ hcall, hconstants 1 ⟨"k", .i32, .int 5, false⟩ (by simp [hglobals]) rfl⟩

end Session

end Ember
