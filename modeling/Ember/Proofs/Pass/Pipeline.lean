import Ember.Pass.Pipeline
import Ember.Proofs.Pass.Branches
import Ember.Proofs.Pass.Copies
import Ember.Proofs.Pass.Forwarding
import Ember.Proofs.Pass.Inlining
import Ember.Proofs.Pass.Removal
import Ember.Proofs.Pass.Replacement

/-!
# Passes keep modules well formed

Every pass of the catalog keeps a module well formed, and so does a whole optimization. Most passes keep the interface as well; the
removal of unused declarations leaves less of it.
-/

namespace Ember.IR

/-- The part of an interface that is about some functions only. -/
def Interface.within (I : Interface) (names : List String) : Interface where
  signature? name := if name ∈ names then I.signature? name else none
  cell? := I.cell?

/-- An interface that says the same as another, about fewer functions. -/
structure Interface.Narrows (J I : Interface) : Prop where
  signature : ∀ name s, J.signature? name = some s → I.signature? name = some s
  cell : J.cell? = I.cell?

theorem Interface.Narrows.refl (I : Interface) : I.Narrows I :=
  ⟨fun _ _ h => h, rfl⟩

theorem Interface.Narrows.trans {I J K : Interface} (h : K.Narrows J) (h' : J.Narrows I) : K.Narrows I :=
  ⟨fun name s hs => h'.signature name s (h.signature name s hs), h.cell.trans h'.cell⟩

theorem Interface.within_narrows (I : Interface) (names : List String) : (I.within names).Narrows I where
  signature name s h := by
    have h : (if name ∈ names then I.signature? name else none) = some s := h
    split at h
    · exact h
    · cases h
  cell := rfl

namespace Function

variable {I : Interface} {f : Function} {site : Site} {b : Block}

/-- A well-formed function is so for every interface that has the function itself and all that it calls. -/
theorem WellFormed.within (hf : f.WellFormed I) {names : List String} (hname : f.name ∈ names)
    (hcallees : ∀ i ∈ f.instructions, ∀ callee, i.callee? = some callee → callee ∈ names) : f.WellFormed (I.within names) where
  shaped := hf.shaped
  settled := hf.settled
  typed := by
    obtain ⟨γ, rfl, hsig, hp, hty, hte⟩ := hf.typed
    let γ' : Grading := { γ with interface := γ.interface.within names }
    have hhas : ∀ v g, γ.Has v g → γ'.Has v g := fun v g h => by cases v <;> exact h
    refine ⟨γ', rfl, (if_pos hname).trans hsig, hp, fun i hi => ?_, fun B hB t ht => ?_⟩
    · rw [← i.mapOperands_id]
      refine (hty i hi).mapOperands rfl (fun callee s hc hs => ?_) (fun _ => rfl) (fun v _ => hhas v) fun _ _ => rfl
      exact (if_pos (hcallees i hi callee hc)).trans hs
    · rw [← t.mapOperands_id]
      exact (hte B hB t ht).mapOperands fun v _ => hhas v
  no_dead_end := hf.no_dead_end

/-! ## Passes on functions -/

/-- Changing the blocks of a function one after the other does not change what others see of it. -/
theorem head_foldl {α : Type} (change : Function → α → Function) (h : ∀ f a, (change f a).head = f.head) (l : List α)
    (f : Function) : (l.foldl change f).head = f.head := by
  induction l generalizing f with
  | nil => rfl
  | cons a l ih => exact (ih _).trans (h f a)

theorem head_join (f : Function) (first second : BlockId) : (f.join first second).head = f.head := by
  unfold join
  split
  · rfl
  · exact head_foldl (·.renamePhiSource · second first) (fun _ _ => rfl) _ _

theorem head_joinWithin (fuel : Nat) (f : Function) : (f.joinWithin fuel).head = f.head := by
  induction fuel generalizing f with
  | zero => rfl
  | succ fuel ih =>
    unfold joinWithin
    split
    · exact (ih _).trans (head_join f _ _)
    · rfl

theorem head_sweepWithin (fuel : Nat) (f : Function) : (f.sweepWithin fuel).head = f.head := by
  induction fuel generalizing f with
  | zero => rfl
  | succ fuel ih =>
    unfold sweepWithin
    dsimp only
    split
    · rfl
    · exact ih _

theorem head_removeUnreachable (f : Function) : f.removeUnreachable.2.head = f.head := by
  unfold removeUnreachable
  dsimp only
  split <;> rfl

/-- A function with a block has a body. -/
theorem isDeclaration_of_block? {id : BlockId} (h : f.block? id = some b) : f.isDeclaration = false := by
  cases hblocks : f.blocks with
  | nil => simp [block?, hblocks] at h
  | cons B Bs => simp [isDeclaration, hblocks]

/-- What is found to be inlined is a call of another function. -/
theorem site?_eq_some {eligible : String → Bool} (hf : f.isDeclaration = false → f.Shaped) (h : f.site? eligible = some site) :
    ∃ b i, f.block? site.block = some b ∧ b.instructions[site.index]? = some i ∧
      i.callee? = some site.callee ∧ site.callee ≠ f.name ∧ eligible site.callee = true := by
  obtain ⟨b, hb, h⟩ := List.exists_of_findSome?_eq_some h
  obtain ⟨⟨i, index⟩, hi, h⟩ := List.exists_of_findSome?_eq_some h
  have hb := (hf (by simpa [isDeclaration] using List.ne_nil_of_mem hb)).block?_id hb
  have hi := List.mem_zipIdx_iff_getElem?.mp hi
  dsimp only at h hi
  split at h
  · rename_i callee hc
    split at h
    · rename_i hok
      obtain rfl := Option.some.inj h
      simp only [Bool.and_eq_true, bne_iff_ne] at hok
      exact ⟨b, i, hb, hi, hc, hok⟩
    · cases h
  · cases h

/-- A block is what stands before a call in it, the call, and what stands behind. -/
theorem callAt_spliceAt {callee : Function} {dest : Option Register} {args : List Value} {ret : Ty} (hb : f.block? site.block = some b)
    (hi : b.instructions[site.index]? = some (.call dest callee.name args ret)) : f.CallAt callee (spliceAt b site dest args ret) b := by
  obtain ⟨hlt, hi⟩ := List.getElem?_eq_some_iff.mp hi
  refine ⟨hb, ?_, rfl⟩
  rw [spliceAt, ← hi, List.cons_getElem_drop_succ, List.take_append_drop]

/-- Inlining a call keeps the caller well formed. -/
theorem WellFormed.inlineCall {callee f' : Function} (hf : f.WellFormed I) (hc : callee.WellFormed I) {i : Instruction}
    (hb : f.block? site.block = some b) (hi : b.instructions[site.index]? = some i) (hcallee : i.callee? = some callee.name)
    (h : f.inlineCall site callee = some f') : f'.WellFormed I ∧ f'.head = f.head := by
  cases i with
  | call dest name args ret =>
    obtain rfl : name = callee.name := Option.some.inj hcallee
    have hspliced := inlineCall_spliced hb hi (hf.shaped.targets b (List.mem_of_getElem? hb)) hf.shaped.entry_lt h
    refine ⟨hspliced.wellFormed (callAt_spliceAt hb hi) hf hc, ?_⟩
    rw [head, head, hspliced.name, hspliced.params, hspliced.ret]
  | _ => cases hcallee

end Function

end Ember.IR

namespace Ember.Pass

open IR

variable {I : Interface} {f : IR.Function}

/-- No pass changes what others see of a function. -/
theorem head_onFunction (p : Pass) (f : IR.Function) : (p.onFunction f).2.head = f.head := by
  cases p with
  | branchSimplification => exact Function.head_foldl Function.removePhiEdge (fun _ _ => rfl) _ (f.mapBlocks (·.straightened))
  | unreachableRemoval => exact Function.head_removeUnreachable f
  | blockMerging => exact Function.head_joinWithin _ f
  | deadInstructionRemoval => exact Function.head_sweepWithin _ f
  | _ => rfl

/-- Every pass keeps a function well formed. -/
theorem wellFormed_onFunction (p : Pass) (hf : f.WellFormed I) : (p.onFunction f).2.WellFormed I := by
  cases p with
  | constantFolding => exact hf.foldConstants
  | simplification => exact hf.simplify
  | copyPropagation => exact hf.propagateCopies
  | branchSimplification => exact hf.simplifyBranches
  | unreachableRemoval => exact hf.removeUnreachable
  | blockMerging => exact hf.mergeBlocks
  | deadInstructionRemoval => exact hf.removeDead
  | storeForwarding => exact hf.forwardStores
  | deadSlotRemoval => exact hf.removeDeadSlots
  | alwaysInline | inline | unusedRemoval => exact hf

/-- Passes that run one after the other on a function keep it well formed. -/
theorem wellFormed_runAll (passes : List Pass) (hf : f.WellFormed I) :
    (runAll passes f).2.1.WellFormed I ∧ (runAll passes f).2.1.head = f.head := by
  induction passes generalizing f with
  | nil => exact ⟨hf, rfl⟩
  | cons p rest ih =>
    obtain ⟨hw, hh⟩ := ih (wellFormed_onFunction p hf)
    exact ⟨hw, hh.trans (head_onFunction p f)⟩

/-- Passes that are repeated on a function keep it well formed. -/
theorem wellFormed_repeatAll (passes : List Pass) (rounds : Nat) (hf : f.WellFormed I) :
    (repeatAll passes rounds f).1.WellFormed I ∧ (repeatAll passes rounds f).1.head = f.head := by
  induction rounds generalizing f with
  | zero => exact ⟨hf, rfl⟩
  | succ rounds ih =>
    obtain ⟨hw, hh⟩ := wellFormed_runAll passes hf
    unfold repeatAll
    dsimp only
    split
    · obtain ⟨hw', hh'⟩ := ih hw
      exact ⟨hw', hh'.trans hh⟩
    · exact ⟨hw, hh⟩

end Ember.Pass

namespace Ember.IR.Module

variable {I : Interface} {m : Module}

/-! ## Modules -/

/-- Changing every function with a body keeps a module well formed. -/
theorem WellFormed.mapBodies (h : m.WellFormed I) {change : Function → Function} (hdeclared : ∀ f, f.isDeclaration = true → change f = f)
    (hdefined : ∀ f, f.isDeclaration = false → f.WellFormed I → (change f).WellFormed I ∧ (change f).head = f.head) :
    ({ m with functions := m.functions.map change } : Module).WellFormed I := by
  refine h.exchange rfl ?_
  rw [List.forall₂_map_right_iff, List.forall₂_same]
  intro f hf
  cases hd : f.isDeclaration with
  | true => exact ⟨by rw [hdeclared f hd], fun hbody => by rw [hdeclared f hd, hd] at hbody; cases hbody⟩
  | false =>
    obtain ⟨hw, hh⟩ := hdefined f hd (h.bodies f hf hd)
    exact ⟨hh, fun _ => hw⟩

/-! ## Inlining -/

/-- Every candidate for inlining has a body. -/
def Bodied (m : Module) (candidates : List String) : Prop :=
  ∀ f ∈ m.functions, f.name ∈ candidates → f.isDeclaration = false

section Once

variable {candidates : List String} {index : Nat} {m' : Module} {event : Event}

/-- Inlining one call puts a caller that holds a copy of the callee in the place of the caller. -/
theorem inlineOnce?_eq_some (h : m.inlineOnce? candidates index = some (m', event)) :
    ∃ caller site callee inlined, m.functions[index]? = some caller ∧ caller.site? candidates.contains = some site ∧
      m.function? site.callee = some callee ∧ caller.inlineCall site callee = some inlined ∧ m' = m.modifyFunction index fun _ => inlined := by
  simp only [inlineOnce?, Option.bind_eq_bind, Option.bind_eq_some_iff, Option.pure_def, Option.some.injEq, Prod.mk.injEq] at h
  obtain ⟨caller, hcaller, site, hsite, callee, hcallee, inlined, hinlined, rfl, -⟩ := h
  exact ⟨caller, site, callee, inlined, hcaller, hsite, hcallee, hinlined, rfl⟩

/-- Where a call is inlined stands a call of the callee, and both functions are well formed. -/
theorem WellFormed.call_of_site (h : m.WellFormed I) (hbodied : m.Bodied candidates) {caller callee : Function} {site : Site}
    (hcaller : m.functions[index]? = some caller) (hsite : caller.site? candidates.contains = some site)
    (hcallee : m.function? site.callee = some callee) :
    (∃ b i, caller.block? site.block = some b ∧ b.instructions[site.index]? = some i ∧ i.callee? = some callee.name) ∧
      caller.WellFormed I ∧ callee.WellFormed I := by
  have hcmem := List.mem_of_getElem? hcaller
  obtain ⟨b, i, hb, hi, hname, -, heligible⟩ := Function.site?_eq_some (fun hd => (h.bodies caller hcmem hd).shaped) hsite
  obtain ⟨hmem, hcname⟩ := mem_of_function? hcallee
  exact ⟨⟨b, i, hb, hi, hcname ▸ hname⟩, h.bodies caller hcmem (Function.isDeclaration_of_block? hb),
    h.bodies callee hmem (hbodied callee hmem (by simpa [hcname] using heligible))⟩

/-- Inlining one call keeps a module well formed. -/
theorem WellFormed.inlineOnce (h : m.WellFormed I) (hbodied : m.Bodied candidates)
    (hm : m.inlineOnce? candidates index = some (m', event)) : m'.WellFormed I ∧ m'.Bodied candidates := by
  obtain ⟨caller, site, callee, inlined, hcaller, hsite, hcallee, hinlined, rfl⟩ := inlineOnce?_eq_some hm
  obtain ⟨⟨b, i, hb, hi, hname⟩, hwcaller, hwcallee⟩ := h.call_of_site hbodied hcaller hsite hcallee
  obtain ⟨hw, hhead⟩ := hwcaller.inlineCall hwcallee hb hi hname hinlined
  have hfunctions : List.Forall₂ (fun f f' => f'.head = f.head ∧ (f'.isDeclaration = false → f'.WellFormed I) ∧
      f'.isDeclaration = f.isDeclaration) m.functions (m.modifyFunction index fun _ => inlined).functions := by
    rw [List.forall₂_iff_get]
    refine ⟨by simp [modifyFunction], fun n hn hn' => ?_⟩
    rw [List.get_eq_getElem, List.get_eq_getElem]
    simp only [modifyFunction, List.getElem_modify]
    split
    · rename_i heq
      subst heq
      obtain rfl : m.functions[index] = caller := (List.getElem?_eq_some_iff.mp hcaller).2
      exact ⟨hhead, fun _ => hw, hw.isDeclaration_eq.trans hwcaller.isDeclaration_eq.symm⟩
    · exact ⟨rfl, h.bodies _ (List.getElem_mem hn), rfl⟩
  refine ⟨h.exchange rfl (hfunctions.imp fun _ _ h => ⟨h.1, h.2.1⟩), fun f' hf' hcand => ?_⟩
  obtain ⟨n, hn, rfl⟩ := List.mem_iff_getElem.mp hf'
  have hn' : n < m.functions.length := hfunctions.length_eq ▸ hn
  obtain ⟨hhead, -, hdecl⟩ := hfunctions.get hn' hn
  have hname : ((m.modifyFunction index fun _ => inlined).functions[n]).name = (m.functions[n]).name :=
    congrArg (·.1) hhead
  exact hdecl.trans (hbodied _ (List.getElem_mem hn') (hname ▸ hcand))

end Once

section Induction

variable {candidates : List String} {P : Module → Journal → Prop} (hstep : ∀ m' m'' journal index event, P m' journal →
  m'.inlineOnce? candidates index = some (m'', event) → P m'' (journal ++ [event]))
include hstep

theorem inlineInto_induction (index fuel : Nat) {journal : Journal} (h : P m journal) :
    P (inlineInto candidates index fuel m).1 (journal ++ (inlineInto candidates index fuel m).2) := by
  induction fuel generalizing m journal with
  | zero => rwa [inlineInto, List.append_nil]
  | succ fuel ih =>
    unfold inlineInto
    split
    · rwa [List.append_nil]
    · rename_i m' event hm
      have hrest := ih (hstep m m' journal index event h hm)
      rwa [List.append_assoc] at hrest

/-- What holds when nothing is noted, and is kept when a call is inlined and noted, holds in the end. -/
theorem inlineCalls_induction {eligible : Function → Bool} (hcandidates : candidates = m.inlinable eligible) (h : P m []) :
    P (m.inlineCalls eligible).1 (m.inlineCalls eligible).2 := by
  subst hcandidates
  exact List.foldlRecOn (motive := fun p : Module × Journal => P p.1 p.2) _ _ h fun _ hp index _ => inlineInto_induction hstep index inlineLimit hp

end Induction

/-- The functions that may be inlined have a body. -/
theorem WellFormed.bodied_inlinable (h : m.WellFormed I) (eligible : Function → Bool) : m.Bodied (m.inlinable eligible) := by
  intro f hf hname
  obtain ⟨g, hg, heq⟩ := List.mem_map.mp hname
  obtain ⟨hg, hok⟩ := List.mem_filter.mp hg
  obtain rfl := List.inj_on_of_nodup_map h.names hg hf heq
  simp only [Bool.and_eq_true, Bool.not_eq_true'] at hok
  exact hok.1.1

/-- Inlining keeps a module well formed. -/
theorem WellFormed.inlineCalls (h : m.WellFormed I) (eligible : Function → Bool) : (m.inlineCalls eligible).1.WellFormed I := by
  have hboth := inlineCalls_induction (P := fun m' _ => m'.WellFormed I ∧ m'.Bodied (m.inlinable eligible))
    (fun _ _ _ _ _ h hm => h.1.inlineOnce h.2 hm) rfl ⟨h, h.bodied_inlinable eligible⟩
  exact hboth.1

/-- Removing unused declarations keeps a module well formed, for what is left of the interface. -/
theorem WellFormed.removeUnused (h : m.WellFormed I) :
    m.removeUnused.2.WellFormed (I.within (m.removeUnused.2.functions.map (·.name))) := by
  have hmem : ∀ f, f ∈ m.removeUnused.2.functions ↔
      f ∈ m.functions ∧ (f.isDeclaration = false ∨ f.name ∈ m.referenced) := fun f => by
    simp [Module.removeUnused, List.mem_filter]
  have hnames : ∀ {f}, f ∈ m.removeUnused.2.functions → f.name ∈ m.removeUnused.2.functions.map (·.name) :=
    fun hf => List.mem_map_of_mem hf
  exact {
    names := h.names.sublist (List.filter_sublist.map _)
    global_names := h.global_names
    signed := fun f hf => by
      obtain ⟨grades, hs, hlen⟩ := h.signed f ((hmem f).mp hf).1
      exact ⟨grades, (if_pos (hnames hf)).trans hs, hlen⟩
    callable := fun name s hs => by
      have hs : (if _ then _ else _) = _ := hs
      split at hs
      · rename_i hin
        exact List.mem_map.mp hin
      · cases hs
    bodies := fun f hf hbody => by
      have hfm := ((hmem f).mp hf).1
      have hw := h.bodies f hfm hbody
      refine hw.within (hnames hf) fun i hi callee hc => ?_
      cases i with
      | call dest name args ret =>
        obtain ⟨γ, hI, -, -, hty, -⟩ := hw.typed
        obtain ⟨⟨grades, hs, -⟩, -⟩ := hty _ hi
        obtain ⟨g, hg, rfl⟩ := h.callable name _ (hI ▸ hs)
        obtain rfl := Option.some.inj hc
        refine hnames ((hmem g).mpr ⟨hg, .inr ?_⟩)
        exact List.mem_flatMap.mpr ⟨_, List.mem_flatMap.mpr ⟨f, hfm, hi⟩, by simp [Instruction.callee?]⟩
      | _ => cases hc
    globals := h.globals
    cells := h.cells }

end Ember.IR.Module

namespace Ember

open IR

variable {I : Interface} {m : IR.Module}

/-- Every pass of the catalog keeps a module well formed, for the same interface or less of it. -/
theorem Pass.wellFormed_onModule (p : Pass) (level : Level) (h : m.WellFormed I) :
    ∃ J, (p.onModule level m).2.1.WellFormed J ∧ J.Narrows I := by
  have hmap : ∀ p : Pass, ({ m with functions := (m.functions.map p.onDefined).map (·.2) } : IR.Module).WellFormed I := by
    intro p
    rw [List.map_map]
    refine h.mapBodies (fun f hd => by simp [Pass.onDefined, hd]) fun f hd hf => ?_
    simp only [Function.comp, Pass.onDefined, hd]
    exact ⟨p.wellFormed_onFunction hf, p.head_onFunction f⟩
  cases p with
  | alwaysInline | inline => exact ⟨I, h.inlineCalls _, .refl I⟩
  | unusedRemoval => exact ⟨_, h.removeUnused, I.within_narrows _⟩
  | _ => exact ⟨I, hmap _, .refl I⟩

/-- Repeating passes on every function keeps a module well formed. -/
theorem Pass.wellFormed_onFunctions (passes : List Pass) (h : m.WellFormed I) : (onFunctions passes m).1.WellFormed I := by
  unfold onFunctions
  split
  · exact h
  · dsimp only
    rw [List.map_map]
    refine h.mapBodies (fun f hd => by simp [hd]) fun f hd hf => ?_
    simp only [Function.comp, hd]
    exact wellFormed_repeatAll passes roundLimit hf

/-- Running passes on a module one after the other keeps it well formed. -/
theorem Pass.wellFormed_onModuleInTurn (level : Level) (passes : List Pass) (h : m.WellFormed I) :
    ∃ J, (onModuleInTurn level passes m).1.WellFormed J ∧ J.Narrows I := by
  induction passes generalizing m I with
  | nil => exact ⟨I, h, .refl I⟩
  | cons p rest ih =>
    obtain ⟨J, hJ, hn⟩ := p.wellFormed_onModule level h
    obtain ⟨K, hK, hn'⟩ := ih hJ
    exact ⟨K, hK, hn'.trans hn⟩

/-- The passes of a level keep a module well formed. -/
theorem IR.Module.WellFormed.runPasses (h : m.WellFormed I) (level : Level) : ∃ J, (m.runPasses level).1.WellFormed J ∧ J.Narrows I := by
  obtain ⟨J, hJ, hn⟩ := Pass.wellFormed_onModuleInTurn level level.modulePasses
    (Pass.wellFormed_onFunctions level.functionPasses h)
  unfold Module.runPasses
  dsimp only
  split
  · exact ⟨J, Pass.wellFormed_onFunctions _ hJ, hn⟩
  · exact ⟨J, hJ, hn⟩

/-- Optimizing keeps a module well formed, and finds no fault in it. -/
theorem IR.Module.WellFormed.optimize (h : m.WellFormed I) (level : Level) :
    (m.optimize level).fault = none ∧ ∃ J, (m.optimize level).module.WellFormed J ∧ J.Narrows I := by
  obtain ⟨J, hJ, hn⟩ := h.runPasses level
  have hmodule : (m.optimize level).module = (m.runPasses level).1 := by simp [Module.optimize, h.check_eq_ok]
  refine ⟨by simp [Module.optimize, h.check_eq_ok, hJ.check_eq_ok], J, hmodule ▸ hJ, hn⟩

end Ember
