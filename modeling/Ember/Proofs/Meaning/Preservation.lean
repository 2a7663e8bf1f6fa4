import Ember.Proofs.Meaning.Inlined
import Ember.Proofs.Session

/-!
# What passes preserve

What refinement of modules means for machines: a call that comes to a result still does, with enough fuel, and leaves the same in memory.
-/

namespace Ember

open IR

variable {I : Interface} {m m' : IR.Module} {file : SourceFile} {debugInfo : Bool} {machine : Machine} {f : IR.Function}
  {args : List Datum}

/-- A call with well-typed arguments is admitted. -/
theorem Session.WellTyped.admits (hargs : WellTyped file debugInfo machine f args) (hm : machine.module.WellFormed I)
    (hI : ∀ name s, I.signature? name = some s → file.signature? debugInfo name = some s) (hf : f ∈ machine.module.functions) :
    machine.module.Admits I machine.memory.size f.name args machine.memory := by
  obtain ⟨grades, hsig, cells, haccords, hargs⟩ := hargs
  obtain ⟨grades', hsig', -⟩ := hm.signed f hf
  cases hsig.symm.trans (hI _ _ hsig')
  have hsize : machine.memory.size = cells.length := haccords.holds.size
  refine ⟨?_, fun cell hcell => ?_, grades, f.ret, _, hsig', haccords.suits, haccords.holds, hargs⟩
  · simpa [hsize] using haccords.globals.length_le
  · obtain ⟨n, hn, hd⟩ := List.mem_iff_getElem.mp hcell
    have hhas := hargs.get hn (hargs.length_eq ▸ hn)
    rw [List.get_eq_getElem, hd] at hhas
    rw [hsize]
    cases hgrade : grades.get ⟨n, hargs.length_eq ▸ hn⟩ with
    | datum t =>
      rw [hgrade] at hhas
      cases hhas
    | address t =>
      rw [hgrade] at hhas
      obtain ⟨cell', heq, hcell', -⟩ := hhas
      cases heq
      exact (List.getElem?_eq_some_iff.mp hcell').1

/-- On a machine of a module that refines, a call comes to the same result and leaves the same, with enough fuel. -/
theorem IR.Module.Refines.call (h : machine.module.Refines I m') {n : Nat} {name : String}
    (hadmits : machine.module.Admits I n name args machine.memory) {v : Datum} (hcall : (machine.call name args).1 = .ok v)
    {memory' : Memory} (hagree : Agree n machine.memory memory') :
    ∃ steps memory₁', (∀ fuel, (Machine.mk m' memory' (fuel + steps)).call name args = (.ok v, ⟨m', memory₁', fuel⟩)) ∧
      Agree n (machine.call name args).2.memory memory₁' := by
  obtain ⟨memory₁', hcalls, hagree'⟩ := h hadmits (Machine.calls_of_call (Prod.ext hcall rfl)) hagree
  obtain ⟨steps, hsteps⟩ := Machine.call_of_calls hcalls
  exact ⟨steps, memory₁', hsteps, hagree'⟩

theorem Agree.refl (memory : Memory) : Agree memory.size memory memory :=
  fun cell hcell => ⟨_, getElem?_pos memory cell hcell, getElem?_pos memory cell hcell⟩

/-- Globals hold the same in memories that agree. -/
theorem Agree.global? {n : Nat} {memory' : Memory} (h : Agree n machine.memory memory') (hn : machine.module.globals.length ≤ n)
    (hglobals : m'.globals = machine.module.globals) (name : String) (fuel : Nat) :
    (Machine.mk m' memory' fuel).global? name = machine.global? name := by
  unfold Machine.global?
  rw [globalCell?_congr hglobals]
  cases hcell : machine.module.globalCell? name with
  | none => rfl
  | some cell =>
    obtain ⟨g, hg, -⟩ := Module.getElem?_of_globalCell hcell
    obtain ⟨d, hd, hd'⟩ := h cell (Nat.lt_of_lt_of_le (List.getElem?_eq_some_iff.mp hg).1 hn)
    exact hd'.trans hd.symm

/-! ## Inlining -/

/-- Inlining preserves what functions do. Take the module of a source after passes in any order, and inline all calls of functions that
a test accepts, be it a mark, a budget for their size or anything else. In any typed memory, a call of a function with well-typed
arguments that came to a result comes to it again, with enough fuel. It leaves the same in the globals, and in all memory that was there
before the call. -/
theorem inlineCalls_preserves {lowered : IR.Module} (h : (Compilation.lower file debugInfo).result.1 = .ok lowered)
    (steps : List (Pass × Level)) (eligible : IR.Function → Bool) :
    let m := steps.foldl (fun m step => (step.1.onModule step.2 m).2.1) lowered
    ∀ machine : Machine, machine.module = m → ∀ f ∈ m.functions, ∀ args, Session.WellTyped file debugInfo machine f args →
      ∀ v, (machine.call f.name args).1 = .ok v → ∃ bound, ∀ fuel, bound ≤ fuel →
        let after := (Machine.mk (m.inlineCalls eligible).1 machine.memory fuel).call f.name args
        after.1 = .ok v ∧ (∀ name, after.2.global? name = (machine.call f.name args).2.global? name) ∧
          ∀ cell, cell < machine.memory.size → after.2.memory[cell]? = (machine.call f.name args).2.memory[cell]? := by
  rintro m machine hmodule f hf args hargs v hcall
  obtain ⟨I, hI⟩ := SourceFile.yields_lower h
  obtain ⟨J, hJ, hnarrows⟩ : ∃ J, m.WellFormed J ∧ J.Narrows I := Compilation.wellFormed_foldl steps hI.wellFormed
  obtain ⟨hrefines, hglobals⟩ : machine.module.Refines J (m.inlineCalls eligible).1 ∧ (m.inlineCalls eligible).1.globals = m.globals := by
    rw [hmodule]
    exact Module.refines_inlineCalls hJ eligible
  have hadmits := hargs.admits (hmodule ▸ hJ) (fun name s hs => hI.signature name s (hnarrows.signature name s hs)) (hmodule ▸ hf)
  obtain ⟨steps, memory', hsteps, hagree⟩ := hrefines.call hadmits hcall (.refl machine.memory)
  refine ⟨steps, fun fuel hfuel => ?_⟩
  obtain ⟨fuel, rfl⟩ := Nat.exists_eq_add_of_le' hfuel
  have hmodule' := Session.module_call machine f.name args
  rw [hsteps fuel]
  refine ⟨rfl, fun name => ?_, fun cell hcell => ?_⟩
  · exact hagree.global? (hmodule' ▸ hadmits.globals) (by rw [hglobals, hmodule', hmodule]) name fuel
  · obtain ⟨d, hd, hd'⟩ := hagree cell hcell
    exact hd'.trans hd.symm

/-- A source with a loop that calls a function with a slot of its own and two returns, and hands it one variable twice. -/
def doubling : SourceFile where
  path := "a.em"
  contents := "var g: i32 = 0;
    inline def add(ref a: i32, ref b: i32): i32 \x7b let t: mut i32 = b; if t > 8 \x7b return a; \x7d a = a + t; return a; \x7d
    def grow(x: i32): i32 \x7b let s: mut i32 = x; while s < 9 \x7b g = g + add(s, s); \x7d return s; \x7d"

theorem inlineCalls_preserves_doubling : ∃ lowered f bound, (Compilation.lower doubling false).result.1 = .ok lowered ∧
    f ∈ lowered.functions ∧ ∀ fuel, bound ≤ fuel →
      let after := (Machine.mk (lowered.inlineCalls (·.alwaysInline)).1 (Machine.ofModule lowered 200).memory fuel).call f.name
        [.constant (.int 2)]
      after.1 = .ok (.constant (.int 16)) ∧ after.2.global? "g" = some (.constant (.int 28)) := by
  have hrun : (match (Compilation.lower doubling false).result.1 with
      | .ok m => decide ((∃ f ∈ m.functions, f.name = "grow" ∧ f.ret = .i32) ∧
          doubling.signature? false "grow" = some ([.datum .i32], .i32) ∧
          ((Machine.ofModule m 200).call "grow" [.constant (.int 2)]).1.toOption = some (.constant (.int 16)) ∧
          ((Machine.ofModule m 200).call "grow" [.constant (.int 2)]).2.global? "g" = some (.constant (.int 28)))
      | .error _ => false) = true := by decide +kernel
  split at hrun
  · rename_i m hm
    obtain ⟨⟨f, hf, hname, hret⟩, hsig, hresult, hglobal⟩ := of_decide_eq_true hrun
    obtain ⟨I, hI⟩ := SourceFile.yields_lower hm
    have hargs : Session.WellTyped doubling false (.ofModule m 200) f [.constant (.int 2)] :=
      ⟨[.datum .i32], by rw [hname, hret]; exact hsig, _, Session.accords_ofModule hI.wellFormed 200, .cons ⟨by decide, by decide⟩ .nil⟩
    rw [← hname] at hresult hglobal
    obtain ⟨v, hv⟩ : ∃ v, ((Machine.ofModule m 200).call f.name [.constant (.int 2)]).1 = .ok v := by
      cases hcall : ((Machine.ofModule m 200).call f.name [.constant (.int 2)]).1 with
      | ok v => exact ⟨v, rfl⟩
      | error crash =>
        rw [hcall] at hresult
        cases hresult
    rw [hv] at hresult
    cases hresult
    obtain ⟨bound, hbound⟩ := inlineCalls_preserves hm [] (·.alwaysInline) _ rfl f hf _ hargs _ hv
    refine ⟨m, f, bound, hm, hf, fun fuel hfuel => ?_⟩
    obtain ⟨hafter, hglobals, -⟩ := hbound fuel hfuel
    exact ⟨hafter, (hglobals "g").trans hglobal⟩
  · cases hrun

end Ember
