import Ember.Proofs.Machine.Relocation
import Ember.Proofs.Pass.Pipeline

/-!
# Modules that do the same

A module refines another if every call that comes to a result there comes to the same result here, and leaves the same in the globals
(`Refines`). Refinement is kept by going on (`Refines.trans`), so a chain of changes is looked at one change at a time. Most changes
exchange one function (`Exchanges`).
-/

namespace Ember

open IR

/-- The first cells of two memories are there and hold the same. -/
def Agree (n : Nat) (memory memory' : Memory) : Prop :=
  ∀ cell, cell < n → ∃ d, memory[cell]? = some d ∧ memory'[cell]? = some d

/-- The first cells stand for themselves. -/
def Cells.first (n : Nat) : Cells :=
  fun a b => a = b ∧ a < n

/-- A function may be called with these arguments in this memory: they are typed, and their addresses are those of the first cells,
which the globals are among. -/
structure IR.Module.Admits (I : Interface) (m : Module) (n : Nat) (name : String) (args : List Datum) (memory : Memory) : Prop where
  globals : m.globals.length ≤ n
  addresses : ∀ cell, .pointer cell ∈ args → cell < n
  typed : ∃ grades ret L, I.signature? name = some (grades, ret) ∧ L.Suits m ∧ L.Holds memory ∧
    List.Forall₂ (Datum.Has L) args grades

/-- Every call that comes to a result in `m` comes to the same result in `m'`, and leaves the same in the first cells. -/
def IR.Module.Refines (I : Interface) (m m' : Module) : Prop :=
  ∀ ⦃n name args memory d memory₁⦄, m.Admits I n name args memory → m.Calls name args memory d memory₁ →
    ∀ ⦃memory'⦄, Agree n memory memory' → ∃ memory₁', m'.Calls name args memory' d memory₁' ∧ Agree n memory₁ memory₁'

section

variable {I J : Interface} {m m' m'' : Module} {n : Nat} {name : String} {args : List Datum}
  {memory memory' memory'' memory₁ : Memory} {d : Datum}

theorem Agree.self (h : Agree n memory memory') : Agree n memory memory := by
  intro cell hcell
  obtain ⟨d, hd, -⟩ := h cell hcell
  exact ⟨d, hd, hd⟩

theorem Agree.trans (h : Agree n memory memory') (h' : Agree n memory' memory'') : Agree n memory memory'' := by
  intro cell hcell
  obtain ⟨d, hd, hd'⟩ := h cell hcell
  obtain ⟨e, he, he'⟩ := h' cell hcell
  cases hd'.symm.trans he
  exact ⟨d, hd, he'⟩

/-- Memories that agree are mirrored. -/
theorem Agree.mirrored (h : Agree n memory memory') (hn : m.globals.length ≤ n) : Mirrored m (Cells.first n) memory memory' where
  globals name cell hcell := by
    obtain ⟨g, hg, -⟩ := Module.getElem?_of_globalCell hcell
    exact ⟨rfl, Nat.lt_of_lt_of_le (List.getElem?_eq_some_iff.mp hg).1 hn⟩
  left := by
    rintro a b b' ⟨rfl, -⟩ ⟨rfl, -⟩
    rfl
  right := by
    rintro a a' b ⟨rfl, -⟩ ⟨rfl, -⟩
    rfl
  same := by
    rintro a b ⟨rfl, ha⟩
    exact h a ha

theorem Mirrored.agree (h : Mirrored m (Cells.first n) memory memory') : Agree n memory memory' :=
  fun _ hcell => h.same ⟨rfl, hcell⟩

namespace IR.Module

/-- The first frame of a call that is admitted is sound. -/
theorem Admits.sound (hm : m.WellFormed I) (h : m.Admits I n name args memory) {dest : Option Register} {g : Frame}
    (hg : m.Enters name args dest g) : g.Sound I m memory := by
  obtain ⟨grades, ret, L, hsig, hL, hmem, hargs⟩ := h.typed
  obtain ⟨⟨γ, hγ⟩, -⟩ := typed_of_enters hm hmem hsig hargs hg
  exact ⟨hg.mem, L, γ, hL, hmem, hγ⟩

/-- Arguments of a call that is admitted are alike in memories that agree. -/
theorem Admits.alike (h : m.Admits I n name args memory) : List.Forall₂ (Datum.Alike (Cells.first n)) args args := by
  refine List.forall₂_same.mpr fun d hd => ?_
  cases d with
  | pointer cell => exact .pointer ⟨rfl, h.addresses cell hd⟩
  | _ => exact .plain nofun

/-- What is admitted by a module is admitted by another with the same globals, if its interface says the same of the function. -/
theorem Admits.of_narrows (h : m.Admits I n name args memory) (hglobals : m'.globals = m.globals) (hm' : m'.WellFormed J)
    (hJ : J.Narrows I) (hname : ∃ f ∈ m'.functions, f.name = name) : m'.Admits J n name args memory where
  globals := hglobals ▸ h.globals
  addresses := h.addresses
  typed := by
    obtain ⟨grades, ret, L, hsig, hL, hmem, hargs⟩ := h.typed
    obtain ⟨f, hf, rfl⟩ := hname
    obtain ⟨grades', hsig', -⟩ := hm'.signed f hf
    cases hsig.symm.trans (hJ.signature _ _ hsig')
    exact ⟨grades, _, L, hsig', ⟨hglobals ▸ hL.globals, hglobals ▸ hL.mutable⟩, hmem, hargs⟩

end IR.Module

/-- If the frames of a module follow those of another, it refines it. -/
theorem Transfer.refines (hm : m.WellFormed I) {Rel : Cells → Frame → Frame → Prop} (S : Transfer I m m' Rel) : m.Refines I m' := by
  intro n name args memory d memory₁ hadmits ⟨g, hg, hruns⟩ memory' hagree
  obtain ⟨g', hg', hrel⟩ := S.enter hg hadmits.alike
  obtain ⟨memory₁', hruns', hmem'⟩ := S.runs hm hruns (hadmits.sound hm hg) hrel (hagree.mirrored hadmits.globals)
  exact ⟨memory₁', ⟨g', hg', hruns'⟩, hmem'.agree⟩

namespace IR.Module

/-- A module refines itself: it does the same in memories that agree. -/
theorem Refines.refl (hm : m.WellFormed I) : m.Refines I m :=
  (transfer_relocated hm).refines hm

theorem Calls.mem_functions (h : m.Calls name args memory d memory₁) : ∃ f ∈ m.functions, f.name = name := by
  obtain ⟨g, ⟨F, B, hF, -⟩, -⟩ := h
  exact ⟨F, mem_of_function? hF⟩

/-- Refinements go on. -/
theorem Refines.trans (h : m.Refines I m') (h' : m'.Refines J m'') (hglobals : m'.globals = m.globals) (hm' : m'.WellFormed J)
    (hJ : J.Narrows I) : m.Refines I m'' := by
  intro n name args memory d memory₁ hadmits hcalls memory'' hagree
  obtain ⟨memory₁', hcalls', hagree₁⟩ := h hadmits hcalls hagree.self
  have hadmits' := hadmits.of_narrows hglobals hm' hJ hcalls'.mem_functions
  obtain ⟨memory₁'', hcalls'', hagree₂⟩ := h' hadmits' hcalls' hagree
  exact ⟨memory₁'', hcalls'', hagree₁.trans hagree₂⟩

/-! ## Exchanging a function -/

/-- A module with `f'` in the place of `f`. -/
structure Exchanges (m m' : Module) (f f' : Function) : Prop where
  globals : m'.globals = m.globals
  own : m.function? f.name = some f
  own' : m'.function? f.name = some f'
  others : ∀ name, name ≠ f.name → m'.function? name = m.function? name

theorem exchanges_modifyFunction {f f' : Function} {index : Nat} (hm : m.WellFormed I) (hf : m.functions[index]? = some f)
    (hhead : f'.head = f.head) (hm' : (m.modifyFunction index fun _ => f').WellFormed I) :
    m.Exchanges (m.modifyFunction index fun _ => f') f f' := by
  have hname : f'.name = f.name := congrArg (·.1) hhead
  have hf' : (m.modifyFunction index fun _ => f').functions[index]? = some f' := by simp [modifyFunction, hf]
  have hother : ∀ k, k ≠ index → (m.modifyFunction index fun _ => f').functions[k]? = m.functions[k]? := fun k hk => by
    simp [modifyFunction, Ne.symm hk]
  refine ⟨rfl, hm.function?_eq (List.mem_of_getElem? hf), hname ▸ hm'.function?_eq (List.mem_of_getElem? hf'), fun name hne => ?_⟩
  refine Option.ext fun g => ⟨fun hg => ?_, fun hg => ?_⟩
  · obtain ⟨hmem, rfl⟩ := mem_of_function? hg
    obtain ⟨k, hk⟩ := List.mem_iff_getElem?.mp hmem
    have hki : k ≠ index := by
      rintro rfl
      cases hf'.symm.trans hk
      exact hne hname
    rw [hother k hki] at hk
    exact hm.function?_eq (List.mem_of_getElem? hk)
  · obtain ⟨hmem, rfl⟩ := mem_of_function? hg
    obtain ⟨k, hk⟩ := List.mem_iff_getElem?.mp hmem
    have hki : k ≠ index := by
      rintro rfl
      cases hf.symm.trans hk
      exact hne rfl
    rw [← hother k hki] at hk
    exact hm'.function?_eq (List.mem_of_getElem? hk)

end IR.Module

end

end Ember
