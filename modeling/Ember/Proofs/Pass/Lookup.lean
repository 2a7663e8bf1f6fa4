import Ember.Proofs.IR.Dominance
import Ember.Proofs.Pass.Pipeline

/-!
# What inlining looks up

The copy of a callee renames its blocks and registers by tables that have an entry for each of them. Here are the modules that inlining
goes through, call after call, and the proof that every name that it looks up on the way has an entry.
-/

namespace Ember.IR

/-- Every block and register that a function mentions is one of its own. -/
structure Function.Copyable (f : Function) : Prop where
  ids : f.blocks.map (·.id) = List.range f.blocks.length
  entry : f.entry < f.blocks.length
  targets : ∀ B ∈ f.blocks, ∀ x ∈ B.successors, x < f.blocks.length
  sources : ∀ dest type incoming, .phi dest type incoming ∈ f.instructions → ∀ edge ∈ incoming, edge.2 < f.blocks.length
  dests : ∀ i ∈ f.instructions, ∀ r, i.dest? = some r → r < f.registers.size

theorem Function.Shaped.copyable {f : Function} (hf : f.Shaped) : f.Copyable where
  ids := by
    refine List.ext_getElem (by simp) fun n hn _ => ?_
    rw [List.getElem_map, List.getElem_range]
    exact hf.ids n _ (List.getElem?_eq_getElem (by simpa using hn))
  entry := hf.entry_lt
  targets := hf.targets
  sources := by
    intro dest type incoming hphi edge hedge
    obtain ⟨b, B, hb, hi⟩ := mem_instructions.mp hphi
    obtain ⟨-, hfrom⟩ := hf.phi_edges_of_mem hb hi
    obtain ⟨P, hP, -⟩ := (hfrom edge.2).mp (List.mem_map_of_mem hedge)
    exact lt_of_block? hP
  dests := hf.sized

namespace Module

/-- The modules that inlining goes through, from a module on: each is the one before it with one call inlined. -/
inductive Inlining (candidates : List String) (m : Module) : Module → Prop
  | start : Inlining candidates m m
  | once {m' m'' : Module} {index : Nat} {event : Event} :
    Inlining candidates m m' → m'.inlineOnce? candidates index = some (m'', event) → Inlining candidates m m''

variable {candidates : List String} {m m' : Module}

/-- Inlining ends at a module that it goes through. -/
theorem inlining_inlineCalls (eligible : Function → Bool) (m : Module) : Inlining (m.inlinable eligible) m (m.inlineCalls eligible).1 :=
  inlineCalls_induction (P := fun m' _ => Inlining _ m m') (fun _ _ _ _ _ h hm => h.once hm) rfl .start

theorem Inlining.wellFormed {I : Interface} (h : Inlining candidates m m') (hm : m.WellFormed I) (hbodied : m.Bodied candidates) :
    m'.WellFormed I ∧ m'.Bodied candidates ∧ m'.functions.length = m.functions.length := by
  induction h with
  | start => exact ⟨hm, hbodied, rfl⟩
  | once _ hstep ih =>
    obtain ⟨hw, hb, hlen⟩ := ih
    obtain ⟨hw', hb'⟩ := hw.inlineOnce hb hstep
    refine ⟨hw', hb', ?_⟩
    obtain ⟨_, _, _, _, -, -, -, -, rfl⟩ := inlineOnce?_eq_some hstep
    rw [← hlen, modifyFunction, List.length_modify]

/-- Wherever inlining has come to, the callee that it picks next is there and can be copied. -/
theorem Inlining.copyable {I : Interface} (h : Inlining candidates m m') (hm : m.WellFormed I) (hbodied : m.Bodied candidates)
    {caller : Function} (hcaller : caller ∈ m'.functions) {site : Site} (hsite : caller.site? candidates.contains = some site) :
    ∃ callee, m'.function? site.callee = some callee ∧ callee.Copyable := by
  obtain ⟨hw, hb, -⟩ := h.wellFormed hm hbodied
  obtain ⟨b, i, hblock, hi, hname, -, heligible⟩ := Function.site?_eq_some (fun hd => (hw.bodies caller hcaller hd).shaped) hsite
  have hwcaller := hw.bodies caller hcaller (Function.isDeclaration_of_block? hblock)
  have hmem : i ∈ caller.instructions := Function.mem_of_block? hblock (List.mem_of_getElem? hi)
  cases i with
  | call dest name args ret =>
    obtain rfl : name = site.callee := Option.some.inj hname
    obtain ⟨γ, hI, -, -, hty, -⟩ := hwcaller.typed
    obtain ⟨⟨grades, hs, -⟩, -⟩ := hty _ hmem
    obtain ⟨callee, hcallee, hcname⟩ := hw.callable _ _ (hI ▸ hs)
    have hbody : callee.isDeclaration = false := hb callee hcallee (by simpa [hcname] using heligible)
    exact ⟨callee, hcname ▸ hw.function?_eq hcallee, (hw.bodies callee hcallee hbody).shaped.copyable⟩
  | _ => cases hname

end Module

end Ember.IR
