import Ember.Machine.Run
import Ember.Proofs.Steps
import Mathlib.Data.List.Forall2

/-!
# Outcomes of a running program

`Meets` says what becomes of a piece of an execution that starts in a given memory: what holds of its result and of the memory
then, and what holds if it crashes. It is kept by the ways in which executions are put together. From what one step meets
follows what a run meets, by induction on the fuel (`run_meets`), and so what a call does (`call_meets`).
-/

namespace Ember

open IR

/-- Started in the memory, the execution comes to a result for which `post` holds, or to a crash for which `stop` holds. -/
def Meets {α : Type} (x : Execution α) (memory : Memory) (post : α → Memory → Prop) (stop : Crash → Memory → Prop) : Prop :=
  match x memory with
  | .ok a memory' => post a memory'
  | .error crash memory' => stop crash memory'

section Meets

variable {α β : Type} {x : Execution α} {next : α → Execution β} {memory : Memory} {mid : α → Memory → Prop}
  {post : β → Memory → Prop} {stop : Crash → Memory → Prop} {a : α}

theorem meets_pure (h : mid a memory) : Meets (pure a) memory mid stop :=
  h

theorem meets_throw {crash : Crash} (h : stop crash memory) : Meets (throw crash) memory mid stop :=
  h

theorem meets_get {mid : Memory → Memory → Prop} (h : mid memory memory) : Meets get memory mid stop :=
  h

theorem Meets.bind (hx : Meets x memory mid stop) (hnext : ∀ a memory', mid a memory' → Meets (next a) memory' post stop) :
    Meets (x >>= next) memory post stop := by
  unfold Meets at hx ⊢
  simp only [Bind.bind, EStateM.bind]
  cases hrun : x memory with
  | ok a memory' =>
    rw [hrun] at hx
    exact hnext a memory' hx
  | error crash memory' =>
    rw [hrun] at hx
    exact hx

theorem meets_of_ok {memory' : Memory} (hx : x memory = .ok a memory') (h : mid a memory') : Meets x memory mid stop := by
  unfold Meets
  rw [hx]
  exact h

theorem meets_bind_of_ok {memory' : Memory} (hx : x memory = .ok a memory') (h : Meets (next a) memory' post stop) :
    Meets (x >>= next) memory post stop := by
  unfold Meets at h ⊢
  simp only [Bind.bind, EStateM.bind, hx]
  exact h

theorem Meets.mono {mid' : α → Memory → Prop} {stop' : Crash → Memory → Prop} (hx : Meets x memory mid stop)
    (hmid : ∀ a memory', mid a memory' → mid' a memory') (hstop : ∀ crash memory', stop crash memory' → stop' crash memory') :
    Meets x memory mid' stop' := by
  unfold Meets at hx ⊢
  cases hrun : x memory with
  | ok a memory' =>
    rw [hrun] at hx
    exact hmid a memory' hx
  | error crash memory' =>
    rw [hrun] at hx
    exact hstop crash memory' hx

/-- Computing a list of results one after the other. What holds of the memory from the start to the end is `hold`. -/
theorem meets_mapM {γ : Type} {compute : γ → Execution α} (each : γ → α → Prop) (hold : Memory → Prop) (l : List γ)
    (h : ∀ c ∈ l, ∀ memory, hold memory → Meets (compute c) memory (fun a memory' => each c a ∧ hold memory') stop)
    (hmemory : hold memory) : Meets (l.mapM compute) memory (fun results memory' => List.Forall₂ each l results ∧ hold memory') stop := by
  induction l generalizing memory with
  | nil => exact meets_pure ⟨.nil, hmemory⟩
  | cons c l ih =>
    rw [List.mapM_cons]
    refine (h c List.mem_cons_self memory hmemory).bind fun a memory' ⟨ha, hmemory'⟩ => ?_
    refine (ih (fun c hc => h c (List.mem_cons_of_mem _ hc)) hmemory').bind fun results memory'' ⟨hresults, hmemory''⟩ => ?_
    exact meets_pure ⟨.cons ha hresults, hmemory''⟩

end Meets

/-! ## Runs -/

/-- What holds after a step: of the frames to go on with, or of the result. -/
def AfterStep (running : List Frame → Memory → Prop) (finished : Datum → Memory → Prop) : Module.Progress → Memory → Prop
  | .running stack, memory => running stack memory
  | .finished result, memory => finished result memory

namespace IR.Module

variable {m : Module} {running : List Frame → Memory → Prop} {finished : Datum → Memory → Prop} {stop : Crash → Memory → Prop}

section

variable (hstep : ∀ stack memory, running stack memory → Meets (m.step stack) memory (AfterStep running finished) stop)
include hstep

/-- What every step keeps while a program is running, a whole run keeps. -/
theorem run_meets (hfuel : ∀ stack memory, running stack memory → stop .outOfFuel memory) (fuel : Nat) {stack : List Frame}
    {memory : Memory} (h : running stack memory) : match m.run fuel stack memory with
    | (.ok result, memory', _) => finished result memory'
    | (.error crash, memory', _) => stop crash memory' := by
  induction fuel generalizing stack memory with
  | zero => exact hfuel stack memory h
  | succ fuel ih =>
    have hs := hstep stack memory h
    unfold Meets at hs
    unfold run
    cases hrun : m.step stack memory with
    | error crash memory' =>
      rw [hrun] at hs
      exact hs
    | ok progress memory' =>
      rw [hrun] at hs
      cases progress with
      | running stack' => exact ih hs
      | finished result => exact hs

/-- What a run goes through: frames and memory before every step, and the memory in which it ends. -/
def trace (m : Module) : (fuel : Nat) → List Frame → Memory → List (List Frame × Memory)
  | 0, stack, memory => [(stack, memory)]
  | fuel + 1, stack, memory => (stack, memory) ::
    match m.step stack memory with
    | .ok (.running stack) memory => trace m fuel stack memory
    | .ok (.finished _) memory => [([], memory)]
    | .error _ memory => [([], memory)]

/-- What every step keeps holds all the way. -/
theorem trace_meets {inv : List Frame → Memory → Prop} (hrunning : ∀ stack memory, running stack memory → inv stack memory)
    (hfinished : ∀ d memory, finished d memory → inv [] memory) (hstop : ∀ crash memory, stop crash memory → inv [] memory) (fuel : Nat)
    {stack : List Frame} {memory : Memory} (h : running stack memory) : ∀ p ∈ m.trace fuel stack memory, inv p.1 p.2 := by
  induction fuel generalizing stack memory with
  | zero => exact List.forall_mem_singleton.mpr (hrunning stack memory h)
  | succ fuel ih =>
    refine List.forall_mem_cons.mpr ⟨hrunning stack memory h, ?_⟩
    have hs := hstep stack memory h
    unfold Meets at hs
    cases hrun : m.step stack memory with
    | error crash memory' =>
      rw [hrun] at hs
      exact List.forall_mem_singleton.mpr (hstop crash memory' hs)
    | ok progress memory' =>
      rw [hrun] at hs
      cases progress with
      | running stack' => exact ih hs
      | finished d => exact List.forall_mem_singleton.mpr (hfinished d memory' hs)

end

/-- A run ends in the last memory that it goes through. -/
theorem getLast?_trace (m : Module) (fuel : Nat) (stack : List Frame) (memory : Memory) :
    (m.trace fuel stack memory).getLast?.map (·.2) = some (m.run fuel stack memory).2.1 := by
  induction fuel generalizing stack memory with
  | zero => rfl
  | succ fuel ih =>
    unfold trace run
    cases m.step stack memory with
    | error crash memory' => rfl
    | ok progress memory' =>
      cases progress with
      | running stack' =>
        dsimp only
        rw [← ih stack' memory', List.getLast?_cons]
        cases hl : (m.trace fuel stack' memory').getLast? with
        | none =>
          have := ih stack' memory'
          rw [hl] at this
          cases this
        | some p => rfl
      | finished d => rfl

end IR.Module

namespace Machine

/-- What a call goes through. -/
def trace (machine : Machine) (name : String) (args : List Datum) : List (List Frame × Memory) :=
  match machine.module.enter name args none 0 machine.memory with
  | .error _ memory => [([], memory)]
  | .ok frame memory => machine.module.trace machine.fuel [frame] memory

/-- A call ends in the last memory that it goes through. -/
theorem getLast?_trace (machine : Machine) (name : String) (args : List Datum) :
    (machine.trace name args).getLast?.map (·.2) = some (machine.call name args).2.memory := by
  obtain ⟨m, memory, fuel⟩ := machine
  unfold trace call
  dsimp only
  cases m.enter name args none 0 memory with
  | error crash memory' => rfl
  | ok frame memory' => exact m.getLast?_trace fuel [frame] memory'

end Machine

/-- What a call does, from what entering the function and every step do. -/
theorem Machine.call_meets {machine : Machine} {name : String} {args : List Datum} (running : List Frame → Memory → Prop)
    (finished : Datum → Memory → Prop) (stop : Crash → Memory → Prop)
    (henter : Meets (machine.module.enter name args none 0) machine.memory (fun frame memory => running [frame] memory) stop)
    (hstep : ∀ stack memory, running stack memory → Meets (machine.module.step stack) memory (AfterStep running finished) stop)
    (hfuel : ∀ stack memory, running stack memory → stop .outOfFuel memory) :
    match machine.call name args with
    | (.ok result, machine') => finished result machine'.memory
    | (.error crash, machine') => stop crash machine'.memory := by
  obtain ⟨m, memory, fuel⟩ := machine
  unfold Meets at henter
  unfold call
  dsimp only at henter hstep ⊢
  cases hrun : m.enter name args none 0 memory with
  | error crash memory' =>
    rw [hrun] at henter
    exact henter
  | ok frame memory' =>
    rw [hrun] at henter
    have := Module.run_meets hstep hfuel fuel henter
    dsimp only
    cases hresult : m.run fuel [frame] memory' with
    | mk result rest =>
      rw [hresult] at this
      cases result with
      | ok d | error crash => exact this

end Ember
