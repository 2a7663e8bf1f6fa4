import Ember.Proofs.Meaning.Copy
import Ember.Proofs.Pass.Lookup

/-!
# Inlining a call

A caller runs next to the function in which one of its calls is inlined. Up to the call and behind it the one follows the other
(`Splice.Follows`), in between the copy follows the callee (`Splice.Copies`); both are shown in one induction over the original run, since
what is called from either place may come to the caller again (`runs_spliced`). So a module in which one call is inlined refines the
original (`refines_inlineOnce`), and so does one in which many are (`refines_inlineCalls`).
-/

namespace Ember

open IR

namespace IR.Splice

variable {s : Splice} {f callee f' : Function} {I : Interface} {m m' : Module} {b : Block} {P : Cells} {g g' g₁ : Frame}
  {memory memory' memory₁ : Memory} {d : Datum}

/-- The caller starts next to its original. -/
theorem follows_start (h : f.Spliced callee s f') (hs : f.CallAt callee s b) {args args' : List Datum}
    (hargs : List.Forall₂ (Datum.Alike P) args args') (dest dest' : Option Register) {B : Block} (hB : f.block? f.entry = some B)
    (memory' : Memory) :
    ∃ B', f'.block? f'.entry = some B' ∧ s.Follows f callee f' P (f.frame args dest B) (f'.frame args' dest' B') memory' := by
  have hsize : f'.registers.size = f.registers.size + callee.registers.size := by rw [h.registers, Array.size_append]
  refine ⟨_, by rw [h.entry]; exact h.own f.entry B hB, ⟨rfl, rfl, ?_, ?_, ?_⟩, .inl ⟨rfl, h.entry, rfl, _, left_block hs hB, ?_⟩⟩
  · exact Frame.likens_frame (by rw [hsize]; exact Nat.le_add_right _ _) hargs dest dest' B _
  · simp [Function.frame]
  · simp [Function.frame, hsize]
  · simp [Function.frame, ownBlock]

/-- Frames that follow each other when a call is inlined: those of the caller, and those of other functions. -/
def Pairs (s : Splice) (f callee f' : Function) (P : Cells) (g g' : Frame) (memory' : Memory) : Prop :=
  g.Relocated P g' ∨ s.Follows f callee f' P g g' memory'

theorem pairs_enter (hx : m.Exchanges m' f f') (h : f.Spliced callee s f') (hs : f.CallAt callee s b) {name : String}
    {values values' : List Datum} {dest : Option Register} (hg : m.Enters name values dest g)
    (halike : List.Forall₂ (Datum.Alike P) values values') (dest' : Option Register) (memory' : Memory) :
    ∃ g', m'.Enters name values' dest' g' ∧ s.Pairs f callee f' P g g' memory' := by
  obtain ⟨F, B, hF, hlength, hB, rfl⟩ := hg
  by_cases hname : name = f.name
  · subst hname
    cases hx.own.symm.trans hF
    obtain ⟨B', hB', hfollows⟩ := follows_start h hs halike dest dest' hB memory'
    refine ⟨_, ⟨f', B', hx.own', ?_, hB', rfl⟩, .inr hfollows⟩
    rw [h.params, ← hlength, halike.length_eq]
  · refine ⟨_, ⟨F, B, (hx.others name hname).trans hF, halike.length_eq.symm.trans hlength, hB, rfl⟩, .inl ⟨rfl, rfl, rfl, rfl, ?_⟩⟩
    exact Frame.likens_frame (Nat.le_refl _) halike dest dest' B B

/-! ## Calls of the caller -/

/-- A caller that is about to call, with the slots of the callee allocated: the call is the one that is inlined, or stands here too. -/
theorem Follows.call_cases (hc : callee.Shaped) (hfollows : s.Follows f callee f' P g g' memory') (hmem : Mirrored m P memory memory')
    {dest : Option Register} {name : String} {args : List Value} {ret : Ty} {rest : List Instruction}
    (hp : g.pending = .call dest name args ret :: rest) (m' : Module) (depth : Nat) :
    ∃ g'' memory'', Path m' depth g' memory' g'' memory'' ∧ Mirrored m P memory memory'' ∧ Carries f callee f' P g g'' ∧
      Hoists callee f.registers.size P g'' memory'' ∧
      ((g.block = s.block ∧ dest = s.dest ∧ name = callee.name ∧ args = s.args ∧ rest = s.after ∧ g''.block = s.block ∧ g''.pending = []) ∨
        ∃ rest', g''.pending = .call dest name args ret :: rest' ∧
          ∀ d d' : Datum, s.Aligned f callee ((g.behind rest).put dest d) ((g''.behind rest').put dest d') ∨
            s.Behind f ((g.behind rest).put dest d) ((g''.behind rest').put dest d')) := by
  obtain ⟨g'', memory'', hpath, hcarries, hhoists, hplace, hmem'⟩ :=
    hfollows.hoist hc hmem (by rw [hp]; rintro - i ⟨⟩; rfl) m' depth
  refine ⟨g'', memory'', hpath, hmem', hcarries, hhoists, ?_⟩
  rcases hplace with hplace | hplace
  · have hleft := hplace.pending
    rw [hp] at hleft
    rcases hleft.of_cons with ⟨hblock, hcall, hrest, hp'⟩ | ⟨rest', hp', hleft'⟩
    · cases hcall
      exact .inl ⟨hblock, rfl, rfl, rfl, hrest, hplace.block.trans hblock, hp'⟩
    · exact .inr ⟨rest', hp', fun d d' => .inl (hplace.put hleft' _ d d')⟩
  · exact .inr ⟨rest, hplace.pending.trans hp, fun d d' => .inr (hplace.put hp _ d d')⟩

/-- The caller comes to the call that is inlined, and goes to the start of the copy. -/
theorem Carries.enters (hcarries : Carries f callee f' P g g') (h : f.Spliced callee s f') (hs : f.CallAt callee s b)
    (hhoists : Hoists callee f.registers.size P g' memory') (hblock : g'.block = s.block) (hp : g'.pending = [])
    {values values' : List Datum} (hargs : g'.Supplies m' s.args values')
    (halike : List.Forall₂ (Datum.Alike P) values values') {B : Block} (hB : callee.block? callee.entry = some B) (dest : Option Register)
    (memory : Memory) (depth : Nat) :
    ∃ g₁, Path m' depth g' memory' g₁ memory' ∧ s.Copies f callee f' m' P (callee.frame values dest B) memory g₁ memory' ∧
      Spares f callee g' g₁ := by
  have hvalues : List.Forall₂ (fun d v => ∃ d', g'.value? m' v = some d' ∧ d.Alike P d') values s.args := by
    refine List.forall₂_iff_get.mpr ⟨halike.length_eq.trans hargs.length_eq.symm, fun n hn hn' => ?_⟩
    have hn'' : n < values'.length := halike.length_eq ▸ hn
    exact ⟨values'[n], hargs.get hn' hn'', halike.get hn hn''⟩
  obtain ⟨B', hB', hcopy, hspares⟩ := copies_start h hhoists hcarries.function' hcarries.size' hvalues hB dest memory
  have hown : g'.function.block? g'.block = some (s.ownBlock f callee s.block b) := by
    rw [hcarries.function', hblock]
    exact h.own s.block b hs.block
  have hleads : g'.Leads m' (s.ownBlock f callee s.block b).terminator (f.blocks.length + 1 + callee.entry) := by
    simp [ownBlock, Frame.Leads]
  exact ⟨_, (Frame.Moves.goto hp hown hleads (by rw [hcarries.function']; exact hB')).path, hcopy, hspares⟩

/-- Behind the copy the caller follows its original again. -/
theorem Carries.landed (hcarries : Carries f callee f' P g g') (hhoists : Hoists callee f.registers.size P g' memory')
    (hspares : Spares f callee g' g₁) {g₂ : Frame} (hfunction : g₂.function = f') (hargs : g₂.args = g₁.args)
    (hblock : g.block = s.block) (hblock' : g₂.block = f.blocks.length) (hpending : g₂.pending = s.after)
    (hregisters : g₂.registers = (g₁.put s.dest d).registers) (htakes : g.Takes s.dest) (hd : d.Plain) {memory₁' : Memory}
    (hsize : memory'.size ≤ memory₁'.size) : s.Follows f callee f' P ((g.behind s.after).put s.dest d) g₂ memory₁' := by
  have hput : Carries f callee f' P ((g.behind s.after).put s.dest d) ((g'.behind []).put s.dest d) :=
    hcarries.put (le_refl P) (.plain hd) s.after []
  -- what is set in the frame behind the copy is set in the frame before it
  have hkept : ∀ r : Register, g₁.registers[r]? = g'.registers[r]? → g₂.registers[r]? = ((g'.behind []).put s.dest d).registers[r]? := by
    intro r hr
    rw [hregisters]
    cases hdest : s.dest with
    | none => exact hr
    | some q =>
      by_cases hq : q = r
      · subst hq
        have hlt : q < g'.registers.size := hcarries.likens.takes htakes q hdest
        simp only [Frame.put, Frame.behind]
        rw [Array.getElem?_setIfInBounds_self_of_lt hlt, Array.getElem?_setIfInBounds_self_of_lt (by rwa [hspares.size])]
      · simp only [Frame.put, Frame.behind, Array.getElem?_setIfInBounds_ne hq]
        exact hr
  refine ⟨hput.congr ?_ ?_ ?_ fun r hr => hkept r (hspares.own r hr), .inr ⟨?_, .inr ⟨?_, hblock', ?_, [], ?_⟩⟩⟩
  · rw [hfunction, Frame.function_put]
    exact hcarries.function'.symm
  · rw [hargs, hspares.args, Frame.args_put]
    rfl
  · rw [hregisters]
    cases s.dest <;> simp [Frame.put, Frame.behind, hspares.size]
  · refine hhoists.mono hsize (fun _ _ => .inl) fun r hr => ?_
    rw [hkept _ (hspares.slot r hr)]
    exact hcarries.slot_put htakes d [] r
  · rw [Frame.block_put]
    exact hblock
  · rw [Frame.pending_put]
    exact hpending
  · simp [Frame.behind]

/-! ## Whole runs -/

/-- A run of the copy: it comes to where the callee returns. -/
def Performs (s : Splice) (I : Interface) (m m' : Module) (f callee f' : Function) (depth : Nat) (P : Cells) (g' : Frame) (memory' : Memory)
    (d : Datum) (memory₁ : Memory) : Prop :=
  ∃ h₁ P₁ g₁ memory₁', P ≤ P₁ ∧ Path m' depth g' memory' g₁ memory₁' ∧ h₁.Sound I m memory₁ ∧ h₁.Returns m d ∧
    s.Copies f callee f' m' P₁ h₁ memory₁ g₁ memory₁' ∧ Spares f callee g' g₁ ∧ Mirrored m P₁ memory₁ memory₁'

section

variable (hm : m.WellFormed I) (hx : m.Exchanges m' f f') (h : f.Spliced callee s f') (hs : f.CallAt callee s b)
  (hf : f.WellFormed I) (hcallee : m.function? callee.name = some callee) (hc : callee.WellFormed I)
include hm hx h hs hf hcallee hc

/-- Every run of the original is one after inlining: of a frame that follows the original, and of the copy where that stands for it. -/
theorem runs_spliced {depth : Nat} (hruns : Runs m depth g memory d memory₁) (hg : g.Sound I m memory) :
    (∀ {P g' memory'}, s.Pairs f callee f' P g g' memory' → Mirrored m P memory memory' →
      ∃ memory₁', Runs m' depth g' memory' d memory₁' ∧ Mirrored m P memory₁ memory₁') ∧
    ∀ {k P g' memory'}, k + 1 = depth → s.Copies f callee f' m' P g memory g' memory' → Mirrored m P memory memory' →
      Performs s I m m' f callee f' k P g' memory' d memory₁ := by
  apply hruns.induct_sound hm ?ret ?move ?call hg
  case ret =>
    intro depth g memory d hg hd hplain
    refine ⟨fun {P g' memory'} hpairs hmem => ?_, fun {k P g' memory'} _ hcopy hmem => ?_⟩
    · rcases hpairs with hrelocated | hfollows
      · exact ⟨memory', .ret (hrelocated.returns hx.globals hmem hd hplain), hmem⟩
      · obtain ⟨g'', memory'', hpath, hd', hmem'⟩ := hfollows.returns hx h hs hmem hc.shaped hd hplain depth
        exact ⟨memory'', hpath.runs (.ret hd'), hmem'⟩
    · exact ⟨g, P, g', memory', le_refl P, .refl, hg, hd, hcopy, .refl g', hmem⟩
  case move =>
    intro depth g g₁ memory memory₁ memory₂ d hg hmove ih
    refine ⟨fun {P g' memory'} hpairs hmem => ?_, fun {k P g' memory'} hk hcopy hmem => ?_⟩
    · obtain ⟨P₁, g₁', memory₁', hle, hpath, hpairs₁, hmem₁⟩ : ∃ P₁ g₁' memory₁', P ≤ P₁ ∧ Path m' depth g' memory' g₁' memory₁' ∧
          s.Pairs f callee f' P₁ g₁ g₁' memory₁' ∧ Mirrored m P₁ memory₁ memory₁' := by
        rcases hpairs with hrelocated | hfollows
        · obtain ⟨P₁, g₁', memory₁', hle, hmove', hrel₁, hmem₁⟩ := hrelocated.moves hm hx.globals hg hmem hmove
          exact ⟨P₁, g₁', memory₁', hle, hmove'.path, .inl hrel₁, hmem₁⟩
        · obtain ⟨P₁, g₁', memory₁', hle, hpath, hfollows₁, hmem₁⟩ := hfollows.moves hm hx h hs hg hmem hc.shaped hmove depth
          exact ⟨P₁, g₁', memory₁', hle, hpath, .inr hfollows₁, hmem₁⟩
      obtain ⟨memory₂', hruns', hmem₂⟩ := ih.1 hpairs₁ hmem₁
      exact ⟨memory₂', hpath.runs hruns', hmem.revert hmem₂ hle⟩
    · obtain ⟨P₁, g₁', memory₁', hle, hpath, hcopy₁, hspares, hmem₁⟩ := hcopy.moves hm hx.globals hf.shaped hs h hg hmem k hmove
      obtain ⟨h₂, P₂, g₂', memory₂', hle₂, hpath₂, hsound, hd, hcopy₂, hspares₂, hmem₂⟩ := ih.2 hk hcopy₁ hmem₁
      exact ⟨h₂, P₂, g₂', memory₂', le_trans hle hle₂, hpath.trans hpath₂, hsound, hd, hcopy₂, hspares.trans hspares₂, hmem₂⟩
  case call =>
    intro depth g k memory memory₁ memory₂ d result dest name args ret rest values hg hp hargs hk hdepth hsound hruns hd htakes ihcallee ihrest
    refine ⟨fun {P g' memory'} hpairs hmem => ?_, fun {n P g' memory'} hn hcopy hmem => ?_⟩
    · rcases hpairs with hrelocated | hfollows
      · obtain ⟨values', hp', hargs', halike, hput⟩ := hrelocated.call hx.globals hmem hp hargs
        obtain ⟨k', hk', hpairs⟩ := pairs_enter hx h hs hk halike dest memory'
        obtain ⟨memory₁', hruns', hmem₁⟩ := ihcallee.1 hpairs hmem
        obtain ⟨memory₂', hrest', hmem₂⟩ := ihrest.1 (.inl (hput d hd.plain)) hmem₁
        exact ⟨memory₂', .call hp' hargs' hk' hdepth hruns' (hrelocated.likens.takes htakes) hrest', hmem₂⟩
      · obtain ⟨g'', memory'', hpath, hmem'', hcarries, hhoists, hcase⟩ := hfollows.call_cases hc.shaped hmem hp m' depth
        rcases hcase with ⟨hblock, rfl, rfl, rfl, rfl, hblock', hp'⟩ | ⟨rest', hp', hplace⟩
        · -- the call that is inlined: the copy performs it
          obtain ⟨F, B, hF, hlength, hB, rfl⟩ := hk
          cases hcallee.symm.trans hF
          obtain ⟨values', hargs', halike⟩ := hcarries.likens.values hmem'' hx.globals (fun _ _ _ _ => trivial) hargs
          obtain ⟨g₀, hjump, hcopy, hspares⟩ :=
            hcarries.enters h hs hhoists hblock' hp' hargs' halike hB s.dest memory depth
          obtain ⟨h₁, P₁, g₁, memory₁', hle, hpath₁, hsound₁, hd₁, hcopy₁, hspares₁, hmem₁⟩ := ihcallee.2 rfl hcopy hmem''
          have hspares' := hspares.trans hspares₁
          obtain ⟨g₂, hland, hfunction, hargs₂, hblock₂, hpending, hregisters⟩ := hcopy₁.land hm hx.globals hs h hsound₁ hmem₁ hf depth hd₁
            hd.plain fun r hr => hspares'.size ▸ hcarries.likens.takes htakes r hr
          have hfollows' := hcarries.landed hhoists hspares' hfunction hargs₂ hblock hblock₂ hpending hregisters htakes hd.plain
            hpath₁.size_le
          obtain ⟨memory₂', hrest', hmem₂⟩ := ihrest.1 (.inr hfollows') (hmem''.revert hmem₁ hle)
          exact ⟨memory₂', (((hpath.trans hjump).trans hpath₁).trans hland).runs hrest', hmem₂⟩
        · obtain ⟨values', hargs', halike⟩ := hcarries.likens.values hmem'' hx.globals (fun _ _ _ _ => trivial) hargs
          obtain ⟨k', hk', hpairs⟩ := pairs_enter hx h hs hk halike dest memory''
          obtain ⟨memory₁', hruns', hmem₁⟩ := ihcallee.1 hpairs hmem''
          have hfollows' : s.Follows f callee f' P ((g.behind rest).put dest d) ((g''.behind rest').put dest d) memory₁' :=
            ⟨hcarries.put (le_refl P) (.plain hd.plain) rest rest', .inr ⟨hhoists.mono hruns'.size_le (fun _ _ => .inl) fun r _ =>
              hcarries.slot_put htakes d rest' r, hplace d d⟩⟩
          obtain ⟨memory₂', hrest', hmem₂⟩ := ihrest.1 (.inr hfollows') hmem₁
          exact ⟨memory₂', hpath.runs (.call hp' hargs' hk' hdepth hruns' (hcarries.likens.takes htakes) hrest'), hmem₂⟩
    · obtain ⟨args', rest', values', hp', hargs', halike, htakes', hput⟩ := hcopy.call hm hx.globals hf.shaped hs hg hmem hp hargs
      obtain ⟨k', hk', hpairs⟩ := pairs_enter hx h hs hk halike (dest.map (f.registers.size + ·)) memory'
      obtain ⟨memory₁', hruns', hmem₁⟩ := ihcallee.1 hpairs hmem
      obtain ⟨hcopy₁, hspares⟩ := hput d memory₁ memory₁' hruns.size_le hruns'.size_le
      obtain ⟨h₂, P₂, g₂', memory₂', hle₂, hpath₂, hsound₂, hd₂, hcopy₂, hspares₂, hmem₂⟩ := ihrest.2 hn hcopy₁ hmem₁
      refine ⟨h₂, P₂, g₂', memory₂', hle₂, ?_, hsound₂, hd₂, hcopy₂, hspares.trans hspares₂, hmem₂⟩
      exact .call hp' hargs' hk' (by omega) (hruns'.shallower (by omega)) htakes' hpath₂

/-- A module with the call inlined refines the original. -/
theorem refines_spliced : m.Refines I m' := by
  intro n name args memory d memory₁ hadmits ⟨g, hg, hruns⟩ memory' hagree
  obtain ⟨g', hg', hpairs⟩ := pairs_enter hx h hs hg hadmits.alike none memory'
  obtain ⟨memory₁', hruns', hmem⟩ := (runs_spliced hm hx h hs hf hcallee hc hruns (hadmits.sound hm hg)).1 hpairs
    (hagree.mirrored hadmits.globals)
  exact ⟨memory₁', ⟨g', hg', hruns'⟩, hmem.agree⟩

end

end IR.Splice

/-! ## The inliner -/

namespace IR.Module

variable {I : Interface} {m m' : Module} {candidates : List String} {index : Nat}

/-- Inlining one call refines a module. -/
theorem refines_inlineOnce (hm : m.WellFormed I) (hbodied : m.Bodied candidates) {event : Event}
    (h : m.inlineOnce? candidates index = some (m', event)) : m.Refines I m' := by
  have hm' := (hm.inlineOnce hbodied h).1
  obtain ⟨caller, site, callee, inlined, hcaller, hsite, hcallee, hinlined, rfl⟩ := inlineOnce?_eq_some h
  obtain ⟨⟨b, i, hb, hi, hname⟩, hwcaller, hwcallee⟩ := hm.call_of_site hbodied hcaller hsite hcallee
  have hcname := (mem_of_function? hcallee).2
  have hx := exchanges_modifyFunction hm hcaller (hwcaller.inlineCall hwcallee hb hi hname hinlined).2 hm'
  cases i with
  | call dest name args ret =>
    obtain rfl : name = callee.name := Option.some.inj hname
    have hspliced := Function.inlineCall_spliced hb hi (hwcaller.shaped.targets b (List.mem_of_getElem? hb)) hwcaller.shaped.entry_lt hinlined
    exact Splice.refines_spliced hm hx hspliced (Function.callAt_spliceAt hb hi) hwcaller (hcname.symm ▸ hcallee) hwcallee
  | _ => cases hname

theorem globals_inlineOnce {event : Event} (h : m.inlineOnce? candidates index = some (m', event)) : m'.globals = m.globals := by
  obtain ⟨-, -, -, -, -, -, -, -, rfl⟩ := inlineOnce?_eq_some h
  rfl

/-- All modules that inlining goes through refine the one that it started from. -/
theorem Inlining.refines (h : Inlining candidates m m') (hm : m.WellFormed I) (hbodied : m.Bodied candidates) :
    m.Refines I m' ∧ m'.globals = m.globals := by
  induction h with
  | start => exact ⟨.refl hm, rfl⟩
  | once h hstep ih =>
    obtain ⟨hm', hbodied', -⟩ := h.wellFormed hm hbodied
    exact ⟨ih.1.trans (refines_inlineOnce hm' hbodied' hstep) ih.2 hm' (.refl I), (globals_inlineOnce hstep).trans ih.2⟩

/-- Inlining refines a module, whatever may be inlined. -/
theorem refines_inlineCalls (hm : m.WellFormed I) (eligible : Function → Bool) :
    m.Refines I (m.inlineCalls eligible).1 ∧ (m.inlineCalls eligible).1.globals = m.globals :=
  (inlining_inlineCalls eligible m).refines hm (hm.bodied_inlinable eligible)

end IR.Module

end Ember
