import Ember.Proofs.Machine.Runs

/-!
# Fuel

Fuel only says how long a program may run, never what it does. A step is what the topmost frame does by itself (`Frame.act`), so a call
with some frames below it either ends after a number of steps that no fuel changes (`Ends`), or starves (`Module.ends_or_starves`).
When it ends, the frames below are what they were. For calls from outside this is `Machine.call_bounded`.
-/

namespace Ember

open IR

namespace Frame

/-! ## Memory grows -/

/-- The memory is no smaller than it was. -/
abbrev Grows {α : Type} (size : Nat) : α → Memory → Prop :=
  fun _ memory => size ≤ memory.size

/-- A crash that more fuel would not have kept away, in a memory that is no smaller than it was. -/
abbrev Breaks (size : Nat) : Crash → Memory → Prop :=
  fun crash memory => crash ≠ .outOfFuel ∧ size ≤ memory.size

/-- In no memory does the execution make it smaller, or stop for want of fuel. -/
def Steady {α : Type} (x : Execution α) : Prop :=
  ∀ memory, Meets x memory (Grows memory.size) (Breaks memory.size)

section

variable {α β : Type}

@[grind ←] theorem steady_pure {a : α} : Steady (pure a) :=
  fun _ => Nat.le_refl _

@[grind ←] theorem steady_throw {crash : Crash} (h : crash ≠ .outOfFuel) : Steady (throw crash : Execution α) :=
  fun _ => ⟨h, Nat.le_refl _⟩

@[grind ←] theorem steady_malformed {cause : Malformation} : Steady (malformed cause : Execution α) :=
  steady_throw nofun

@[grind ←] theorem Steady.bind {x : Execution α} {next : α → Execution β} (hx : Steady x) (hnext : ∀ a, Steady (next a)) :
    Steady (x >>= next) :=
  fun memory => (hx memory).bind fun a memory' h =>
    (hnext a memory').mono (fun _ _ => Nat.le_trans h) fun _ _ => And.imp_right (Nat.le_trans h)

@[grind ←] theorem steady_get : Steady get :=
  fun _ => Nat.le_refl _

@[grind ←] theorem steady_modify {change : Memory → Memory} (h : ∀ memory, memory.size ≤ (change memory).size) : Steady (modify change) :=
  fun memory => h memory

end

section

variable {m : Module} {f : Frame} {v : Value}

@[grind ←] theorem steady_operand : Steady (f.operand m v) := by
  cases v <;> grind [operand]

@[grind ←] theorem steady_constant : Steady (f.constant m v) := by
  grind [Frame.constant]

@[grind ←] theorem steady_address : Steady (f.address m v) := by
  grind [address]

@[grind ←] theorem steady_resultOr {crash : Crash} (h : crash ≠ .outOfFuel) {result : Option Constant} : Steady (resultOr crash result) := by
  cases result <;> grind [resultOr]

@[grind ←] theorem steady_compute {i : Instruction} : Steady (f.compute m i) := by
  unfold compute
  grind

@[grind ←] theorem steady_receive {dest : Option Register} {d : Datum} : Steady (f.receive dest d) := by
  cases dest <;> grind [receive, Frame.set]

@[grind ←] theorem steady_enterBlock {previous : Option BlockId} {id : BlockId} : Steady (f.enterBlock previous id) := by
  grind [enterBlock]

@[grind ←] theorem steady_taken {d : Datum} : Steady (f.taken d) := by
  unfold taken
  grind

@[grind ←] theorem steady_enter {name : String} {args : List Datum} {dest : Option Register} {depth : Nat} :
    Steady (m.enter name args dest depth) := by
  grind [Module.enter]

@[grind ←] theorem steady_mapM_operand {args : List Value} : Steady (args.mapM (f.operand m)) := by
  induction args with
  | nil => exact steady_pure
  | cons v args ih =>
    rw [List.mapM_cons]
    grind

@[grind ←] theorem steady_finishBlock {B : Block} : Steady (f.finishBlock m B) := by
  grind [finishBlock, jump]

@[grind ←] theorem steady_execute {i : Instruction} {depth : Nat} : Steady (f.execute m depth i) := by
  unfold execute
  grind

theorem steady_act (m : Module) (f : Frame) (depth : Nat) : Steady (f.act m depth) := by
  grind [act]

end

end Frame

/-! ## Calls with frames below them -/

namespace IR.Module

variable {m : Module} {depth fuel steps : Nat} {f g : Frame} {callers : List Frame} {memory memory' : Memory}
  {outcome : Except Crash Datum}

/-- Goes on after a step with the fuel that is left. -/
def proceed (m : Module) (fuel : Nat) : EStateM.Result Crash Memory Progress → Except Crash Datum × Memory × Nat
  | .ok (.running stack) memory => m.run fuel stack memory
  | .ok (.finished result) memory => (.ok result, memory, fuel)
  | .error crash memory => (.error crash, memory, fuel)

theorem run_succ (m : Module) (fuel : Nat) (stack : List Frame) (memory : Memory) :
    m.run (fuel + 1) stack memory = m.proceed fuel (m.step stack memory) := by
  rw [run]
  cases m.step stack memory with
  | ok progress memory' => cases progress <;> rfl
  | error crash memory' => rfl

/-- What follows a call that is over: its result goes to the frame below, or it ends the run. -/
def conclude (m : Module) (fuel : Nat) (dest : Option Register) (callers : List Frame) (memory : Memory) :
    Except Crash Datum → Except Crash Datum × Memory × Nat
  | .ok d => m.proceed fuel (deliver d dest callers memory)
  | .error crash => (.error crash, memory, fuel)

/-- The fuel does not last. -/
def Starves (m : Module) (fuel : Nat) (stack : List Frame) (memory : Memory) : Prop :=
  ∃ memory', m.run fuel stack memory = (.error .outOfFuel, memory', 0) ∧ memory.size ≤ memory'.size

/-- A call, of which `f` is the frame, is over after so many steps, whatever the `depth` frames below it are. -/
structure Ends (m : Module) (depth : Nat) (f : Frame) (memory : Memory) (steps : Nat) (outcome : Except Crash Datum)
    (memory' : Memory) : Prop where
  run : ∀ callers : List Frame, callers.length = depth → ∀ fuel,
    m.run (fuel + steps) (f :: callers) memory = m.conclude fuel f.dest callers memory' outcome
  starves : ∀ callers : List Frame, callers.length = depth → ∀ fuel, fuel < steps → m.Starves fuel (f :: callers) memory
  grows : memory.size ≤ memory'.size
  outcome : outcome ≠ .error .outOfFuel

/-- A call goes on with another frame after so many steps, over the same frames. -/
structure Advances (m : Module) (depth : Nat) (f : Frame) (memory : Memory) (steps : Nat) (f' : Frame) (memory' : Memory) : Prop where
  run : ∀ callers : List Frame, callers.length = depth → ∀ fuel,
    m.run (fuel + steps) (f :: callers) memory = m.run fuel (f' :: callers) memory'
  starves : ∀ callers : List Frame, callers.length = depth → ∀ fuel, fuel < steps → m.Starves fuel (f :: callers) memory
  grows : memory.size ≤ memory'.size
  dest : f'.dest = f.dest

theorem starves_zero (m : Module) (stack : List Frame) (memory : Memory) : m.Starves 0 stack memory :=
  ⟨memory, rfl, Nat.le_refl _⟩

/-- A step before the fuel runs out changes nothing about that. -/
theorem Starves.of_step {stack stack' : List Frame} (h : m.Starves fuel stack' memory')
    (hstep : m.step stack memory = .ok (.running stack') memory') (hsize : memory.size ≤ memory'.size) :
    m.Starves (fuel + 1) stack memory := by
  obtain ⟨memory'', hrun, hsize'⟩ := h
  exact ⟨memory'', by rw [run_succ, hstep, proceed, hrun], Nat.le_trans hsize hsize'⟩

section Advances

variable {next : Frame} {middle : Memory} {more : Nat}

theorem Advances.starve (h : m.Advances depth f memory steps next middle) {callers : List Frame} (hcallers : callers.length = depth)
    (h' : ∀ rest, fuel = rest + steps → m.Starves rest (next :: callers) middle) : m.Starves fuel (f :: callers) memory := by
  rcases Nat.lt_or_ge fuel steps with hlt | hle
  · exact h.starves callers hcallers fuel hlt
  · obtain ⟨rest, rfl⟩ := Nat.exists_eq_add_of_le' hle
    obtain ⟨memory'', hrun, hsize⟩ := h' rest rfl
    exact ⟨memory'', (h.run callers hcallers rest).trans hrun, Nat.le_trans h.grows hsize⟩

theorem Advances.ends (h : m.Advances depth f memory steps next middle) (h' : m.Ends depth next middle more outcome memory') :
    m.Ends depth f memory (more + steps) outcome memory' where
  run callers hcallers fuel := by rw [← Nat.add_assoc, h.run callers hcallers, h'.run callers hcallers, h.dest]
  starves callers hcallers fuel hfuel := h.starve hcallers fun rest hrest => h'.starves callers hcallers rest (by omega)
  grows := Nat.le_trans h.grows h'.grows
  outcome := h'.outcome

end Advances

/-! ## Steps of a call -/

theorem receive_eq_error {dest : Option Register} {d : Datum} {crash : Crash} (h : f.receive dest d memory = .error crash memory') :
    memory' = memory ∧ crash ≠ .outOfFuel := by
  cases dest with
  | none => cases h
  | some r =>
    simp only [Frame.receive, Frame.set] at h
    split at h
    · cases h
    · cases h
      exact ⟨rfl, by simp⟩

/-- A call that is over after one step. -/
theorem ends_of_step (hrun : ∀ callers : List Frame, callers.length = depth → ∀ fuel,
      m.run (fuel + 1) (f :: callers) memory = m.conclude fuel f.dest callers memory' outcome)
    (hsize : memory.size ≤ memory'.size) (houtcome : outcome ≠ .error .outOfFuel) : m.Ends depth f memory 1 outcome memory' where
  run := hrun
  starves callers _ fuel hfuel := by
    obtain rfl := Nat.lt_one_iff.mp hfuel
    exact m.starves_zero _ _
  grows := hsize
  outcome := houtcome

theorem step_of_act {action : Frame.Act} (hact : f.act m depth memory = .ok action memory') (hcallers : callers.length = depth) :
    m.step (f :: callers) memory = action.take f.dest callers memory' := by
  rw [Frame.step_eq_act, hcallers, bind_of_ok hact]

theorem step_of_crash {crash : Crash} (hact : f.act m depth memory = .error crash memory') (hcallers : callers.length = depth) :
    m.step (f :: callers) memory = .error crash memory' := by
  rw [Frame.step_eq_act, hcallers, bind_of_error hact]

/-- A frame stays a frame of the same call as long as it is there. -/
theorem dest_of_act {action : Frame.Act} (h : f.act m depth memory = .ok action memory') : ∀ next ∈ action.own, next.dest = f.dest := by
  have hacts := Frame.act_cases h
  cases action with
  | goes =>
    rintro _ ⟨⟩
    exact hacts.dest_eq
  | calls =>
    obtain ⟨_, _, _, _, _, _, -, -, -, -, -, rfl⟩ := hacts
    rintro _ ⟨⟩
    rfl
  | returns => exact nofun

theorem advances_of_goes {next : Frame} (hact : f.act m depth memory = .ok (.goes next) memory') (hsize : memory.size ≤ memory'.size) :
    m.Advances depth f memory 1 next memory' where
  run callers hcallers fuel := by
    rw [run_succ, step_of_act hact hcallers]
    rfl
  starves callers _ fuel hfuel := by
    obtain rfl := Nat.lt_one_iff.mp hfuel
    exact m.starves_zero _ _
  grows := hsize
  dest := dest_of_act hact next rfl

section Callee

variable {waiting : Frame} {middle memory₁ : Memory} {result : Except Crash Datum}
  (hact : f.act m depth memory = .ok (.calls g waiting) middle) (hsize : memory.size ≤ middle.size)
include hact

/-- What a call does while a call that it has made is running. -/
theorem run_of_calls (hcallee : m.Ends (depth + 1) g middle steps result memory₁) (hcallers : callers.length = depth) (fuel : Nat) :
    m.run (fuel + (steps + 1)) (f :: callers) memory = m.conclude fuel g.dest (waiting :: callers) memory₁ result := by
  rw [← Nat.add_assoc, run_succ, step_of_act hact hcallers]
  exact hcallee.run (waiting :: callers) (by simp [hcallers]) fuel

include hsize

theorem starves_of_calls (hcallers : callers.length = depth)
    (hcallee : ∀ rest, fuel = rest + 1 → m.Starves rest (g :: waiting :: callers) middle) : m.Starves fuel (f :: callers) memory := by
  cases fuel with
  | zero => exact m.starves_zero _ _
  | succ fuel => exact (hcallee fuel rfl).of_step (step_of_act hact hcallers) hsize

theorem starves_before_return (hcallee : m.Ends (depth + 1) g middle steps result memory₁) (hcallers : callers.length = depth)
    (hfuel : fuel < steps + 1) : m.Starves fuel (f :: callers) memory :=
  starves_of_calls hact hsize hcallers fun rest hrest => hcallee.starves _ (by simp [hcallers]) rest (by omega)

/-- A call goes on when the call that it has made returns. -/
theorem advances_of_calls {d : Datum} (hcallee : m.Ends (depth + 1) g middle steps (.ok d) memory₁) (htakes : waiting.Takes g.dest) :
    m.Advances depth f memory (steps + 1) (waiting.put g.dest d) memory₁ where
  run callers hcallers fuel := by
    have hreceive : waiting.receive g.dest d memory₁ = .ok (waiting.put g.dest d) memory₁ :=
      Frame.receive_eq_ok.mpr ⟨htakes, rfl, rfl⟩
    rw [run_of_calls hact hcallee hcallers]
    simp only [conclude, deliver, Bind.bind, EStateM.bind, hreceive]
    rfl
  starves _ hcallers _ := starves_before_return hact hsize hcallee hcallers
  grows := Nat.le_trans hsize hcallee.grows
  dest := (Frame.dest_put _ _ _).trans (dest_of_act hact waiting rfl)

/-- A call crashes if the call that it has made does, or if it has no place for what that returns. -/
theorem ends_of_crash {crash : Crash} (hcallee : m.Ends (depth + 1) g middle steps result memory₁) (hcrash : crash ≠ .outOfFuel)
    (hstop : ∀ callers fuel, m.conclude fuel g.dest (waiting :: callers) memory₁ result = (.error crash, memory₁, fuel)) :
    m.Ends depth f memory (steps + 1) (.error crash) memory₁ where
  run callers hcallers fuel := (run_of_calls hact hcallee hcallers fuel).trans (hstop callers fuel)
  starves _ hcallers _ := starves_before_return hact hsize hcallee hcallers
  grows := Nat.le_trans hsize hcallee.grows
  outcome h := hcrash (Except.error.inj h)

end Callee

/-- A call is over after a number of steps that does not depend on the fuel, or the fuel does not last, nor does less. -/
theorem ends_or_starves (m : Module) (fuel : Nat) (depth : Nat) (f : Frame) (memory : Memory) :
    (∃ steps outcome memory', steps ≤ fuel ∧ m.Ends depth f memory steps outcome memory') ∨
      ∀ callers : List Frame, callers.length = depth → ∀ left ≤ fuel, m.Starves left (f :: callers) memory := by
  induction fuel using Nat.strongRecOn generalizing depth f memory with
  | ind fuel ih =>
    cases fuel with
    | zero =>
      refine .inr fun callers _ left hleft => ?_
      obtain rfl := Nat.le_zero.mp hleft
      exact m.starves_zero _ _
    | succ fuel =>
      have hgrows := Frame.steady_act m f depth memory
      unfold Meets at hgrows
      cases hact : f.act m depth memory with
      | error crash memory' =>
        rw [hact] at hgrows
        refine .inl ⟨1, .error crash, memory', by omega, ends_of_step (fun callers hcallers fuel => ?_) hgrows.2 fun h => ?_⟩
        · rw [run_succ, step_of_crash hact hcallers]
          rfl
        · exact hgrows.1 (Except.error.inj h)
      | ok action middle =>
        rw [hact] at hgrows
        cases action with
        | returns d =>
          refine .inl ⟨1, .ok d, middle, by omega, ends_of_step (fun callers hcallers fuel => ?_) hgrows nofun⟩
          rw [run_succ, step_of_act hact hcallers]
          rfl
        | goes next =>
          have hadvances := advances_of_goes hact hgrows
          rcases ih fuel (Nat.lt_succ_self _) depth next middle with ⟨steps, outcome, memory', hle, hends⟩ | hstarves
          · exact .inl ⟨steps + 1, outcome, memory', by omega, hadvances.ends hends⟩
          · exact .inr fun callers hcallers left hleft =>
              hadvances.starve hcallers fun rest hrest => hstarves callers hcallers rest (by omega)
        | calls g waiting =>
          rcases ih fuel (Nat.lt_succ_self _) (depth + 1) g middle with ⟨steps, result, memory₁, hle, hcallee⟩ | hstarves
          · cases result with
            | error crash =>
              refine .inl ⟨steps + 1, .error crash, memory₁, by omega, ends_of_crash hact hgrows hcallee ?_ fun _ _ => rfl⟩
              exact fun h => hcallee.outcome (by rw [h])
            | ok d =>
              cases hreceive : waiting.receive g.dest d memory₁ with
              | error crash memory₂ =>
                obtain ⟨hsame, hcrash⟩ := receive_eq_error hreceive
                rw [hsame] at hreceive
                refine .inl ⟨steps + 1, .error crash, memory₁, by omega, ends_of_crash hact hgrows hcallee hcrash fun _ _ => ?_⟩
                rw [conclude, deliver, bind_of_error hreceive, proceed]
              | ok next memory₂ =>
                obtain ⟨htakes, -, -⟩ := Frame.receive_eq_ok.mp hreceive
                have hadvances := advances_of_calls hact hgrows hcallee htakes
                rcases ih (fuel - steps) (by omega) depth (waiting.put g.dest d) memory₁ with ⟨more, outcome, memory', hmore, hends⟩ | hstarves
                · exact .inl ⟨more + (steps + 1), outcome, memory', by omega, hadvances.ends hends⟩
                · exact .inr fun callers hcallers left hleft =>
                    hadvances.starve hcallers fun rest hrest => hstarves callers hcallers rest (by omega)
          · exact .inr fun callers hcallers left hleft =>
              starves_of_calls hact hgrows hcallers fun rest hrest => hstarves _ (by simp [hcallers]) rest (by omega)

/-- A call that a frame has made returns to that frame, crashes, or starves. -/
theorem run_callee (m : Module) (callee caller : Frame) (below : List Frame) (memory : Memory) (fuel : Nat) :
    (∃ steps ≤ fuel, ∃ d memory', memory.size ≤ memory'.size ∧
      ∀ left, m.run (left + steps) (callee :: caller :: below) memory = m.run left (caller.put callee.dest d :: below) memory') ∨
    (∃ steps ≤ fuel, ∃ crash memory', crash ≠ .outOfFuel ∧ memory.size ≤ memory'.size ∧
      ∀ left, m.run (left + steps) (callee :: caller :: below) memory = (.error crash, memory', left)) ∨
    ∀ left ≤ fuel, m.Starves left (callee :: caller :: below) memory := by
  rcases m.ends_or_starves fuel (below.length + 1) callee memory with ⟨steps, outcome, memory', hle, hends⟩ | hstarves
  · have hrun := hends.run (caller :: below) rfl
    cases outcome with
    | error crash => exact .inr (.inl ⟨steps, hle, crash, memory', fun h => hends.outcome (by rw [h]), hends.grows, hrun⟩)
    | ok d =>
      simp only [conclude, deliver, Bind.bind, EStateM.bind] at hrun
      cases hreceive : caller.receive callee.dest d memory' with
      | error crash memory'' =>
        obtain ⟨hsame, hcrash⟩ := receive_eq_error hreceive
        rw [hsame] at hreceive
        refine .inr (.inl ⟨steps, hle, crash, memory', hcrash, hends.grows, fun left => ?_⟩)
        rw [hrun, hreceive]
        rfl
      | ok next memory'' =>
        obtain ⟨-, hnext, hsame⟩ := Frame.receive_eq_ok.mp hreceive
        rw [hnext, hsame] at hreceive
        refine .inl ⟨steps, hle, d, memory', hends.grows, fun left => ?_⟩
        rw [hrun, hreceive]
        rfl
  · exact .inr (.inr (hstarves _ rfl))

end IR.Module

namespace Machine

/-- A call goes through no more moments than it has fuel for, and the one in which it starts. -/
theorem length_trace_le (machine : Machine) (name : String) (args : List Datum) : (machine.trace name args).length ≤ machine.fuel + 1 := by
  have hrun : ∀ (m : Module) (fuel : Nat) (stack : List Frame) (memory : Memory), (m.trace fuel stack memory).length ≤ fuel + 1 := by
    intro m fuel
    induction fuel with
    | zero => exact fun _ _ => Nat.le_refl _
    | succ fuel ih =>
      intro stack memory
      rw [Module.trace, List.length_cons, Nat.succ_le_succ_iff]
      split
      · exact ih _ _
      · exact Nat.succ_le_succ (Nat.zero_le _)
      · exact Nat.succ_le_succ (Nat.zero_le _)
  unfold trace
  split
  · exact Nat.succ_le_succ (Nat.zero_le _)
  · exact hrun _ _ _ _

/-- A call from outside ends after a number of steps that does not depend on the fuel, or the fuel does not last, nor does less. -/
theorem call_ends_or_starves (machine : Machine) (name : String) (args : List Datum) :
    (∃ steps outcome memory, steps ≤ machine.fuel ∧ outcome ≠ .error .outOfFuel ∧ machine.memory.size ≤ memory.size ∧
      ∀ fuel, { machine with fuel := fuel + steps }.call name args = (outcome, { machine with memory, fuel })) ∨
      ∀ fuel ≤ machine.fuel, ∃ memory, machine.memory.size ≤ memory.size ∧
        { machine with fuel }.call name args = (.error .outOfFuel, { machine with memory, fuel := 0 }) := by
  obtain ⟨m, memory, fuel⟩ := machine
  have hgrows : Meets (m.enter name args none 0) memory _ _ := Frame.steady_enter memory
  unfold Meets at hgrows
  simp only [call]
  cases henter : m.enter name args none 0 memory with
  | error crash memory' =>
    rw [henter] at hgrows
    exact .inl ⟨0, .error crash, memory', Nat.zero_le _, fun h => hgrows.1 (Except.error.inj h), hgrows.2, fun _ => rfl⟩
  | ok frame memory₁ =>
    rw [henter] at hgrows
    rcases m.ends_or_starves fuel 0 frame memory₁ with ⟨steps, outcome, memory', hle, hends⟩ | hstarves
    · refine .inl ⟨steps, outcome, memory', hle, hends.outcome, Nat.le_trans hgrows hends.grows, fun fuel => ?_⟩
      simp only [hends.run [] rfl fuel]
      cases outcome <;> rfl
    · refine .inr fun left hleft => ?_
      obtain ⟨memory', hrun, hsize⟩ := hstarves [] rfl left hleft
      exact ⟨memory', Nat.le_trans hgrows hsize, by simp only [hrun]⟩

end Machine

end Ember
