import Ember.Proofs.Lower.Run

/-!
# What a step does

A step is sound in a workspace if it can fail there only for a fault that has a place in the source. What it does is said together with
that: `Does` has what holds if the step succeeds. The steps of the builder never fail where there is an open block, and the table has
every type that it is asked for.
-/

namespace Ember

open IR (Instruction Terminator Value Ty)

/-- The fault lies in the source. -/
def Fault.InSource (f : Fault) : Prop :=
  f.loc?.isSome = true

namespace Lowering

variable {α β : Type} {w : Workspace} {a : α} {loc : Loc}

/-- If the step fails, the source is at fault. -/
def Sound (x : Lowering α) (w : Workspace) : Prop :=
  ∀ f w', x w = .error f w' → f.InSource

/-- What a step does: if it succeeds, then so and so; if it fails, the source is at fault. -/
def Does (x : Lowering α) (w : Workspace) (Q : α → Workspace → Prop) : Prop :=
  Sound x w ∧ ∀ a w', x w = .ok a w' → Q a w'

variable {x : Lowering α} {Q : α → Workspace → Prop} {P : β → Workspace → Prop} {next : α → Lowering β}

theorem sound_of_ok {w' : Workspace} (h : x w = .ok a w') : Sound x w := by
  intro f w'' hf
  rw [h] at hf
  cases hf

theorem Does.bind (h : Does x w Q) (hnext : ∀ a w', Q a w' → Does (next a) w' P) : Does (x >>= next) w P := by
  refine ⟨fun f w'' hf => ?_, fun b w'' hb => ?_⟩
  · simp only [Bind.bind, EStateM.bind] at hf
    cases hr : x w with
    | ok a w' =>
      rw [hr] at hf
      exact (hnext a w' (h.2 a w' hr)).1 f w'' hf
    | error e w' =>
      rw [hr] at hf
      cases hf
      exact h.1 _ _ hr
  · obtain ⟨a, w', ha, hb⟩ := run_bind.mp hb
    exact (hnext a w' (h.2 a w' ha)).2 b w'' hb

/-- What follows a step that leads to a state of which something is known. -/
theorem Does.at {S : Type} {work : S → Workspace} {R : α → S → Prop} (h : Does x w fun a w' => ∃ σ, work σ = w' ∧ R a σ)
    (hnext : ∀ a σ, R a σ → Does (next a) (work σ) P) : Does (x >>= next) w P :=
  h.bind fun a _ ⟨σ, hw, hR⟩ => hw ▸ hnext a σ hR

/-- Nothing follows a step that always fails. -/
theorem Does.stop (h : Does x w fun _ _ => False) : Does (x >>= next) w P :=
  h.bind fun _ _ hf => hf.elim

theorem Does.imp {P : α → Workspace → Prop} (h : Does x w Q) (hQ : ∀ a w', Q a w' → P a w') : Does x w P :=
  ⟨h.1, fun a w' ha => hQ a w' (h.2 a w' ha)⟩

/-- A step that is known to succeed does what its outcome says. -/
theorem does_outcome {w' : Workspace} (h : x w = .ok a w') (hQ : Q a w') : Does x w Q :=
  ⟨sound_of_ok h, fun b w₁ hb => by cases h.symm.trans hb; exact hQ⟩

/-- What follows a step that is known to succeed starts from its outcome. -/
theorem does_of_ok {v : Workspace} (h : x w = .ok a v) (hnext : Does (next a) v P) : Does (x >>= next) w P :=
  (does_outcome (Q := fun b w₁ => b = a ∧ w₁ = v) h ⟨rfl, rfl⟩).bind fun _ _ ⟨hb, hw⟩ => hb ▸ hw ▸ hnext

theorem does_pure (h : Q a w) : Does (pure a) w Q :=
  does_outcome rfl h

theorem does_get {Q : Workspace → Workspace → Prop} (h : Q w w) : Does get w Q :=
  does_outcome rfl h

theorem does_modify {g : Workspace → Workspace} {Q : Unit → Workspace → Prop} (h : Q () (g w)) : Does (modify g) w Q :=
  does_outcome rfl h

theorem does_throw {f : Fault} (h : f.InSource) : Does (throw f : Lowering α) w Q :=
  ⟨by rintro _ _ ⟨⟩; exact h, fun _ _ ha => (run_throw.mp ha).elim⟩

theorem does_ite {c : Prop} [Decidable c] {y : Lowering α} (hx : c → Does x w Q) (hy : ¬c → Does y w Q) :
    Does (if c then x else y) w Q := by
  split
  · exact hx ‹_›
  · exact hy ‹_›

theorem Does.discard {P : Unit → Workspace → Prop} (h : Does x w Q) (hP : ∀ a w', Q a w' → P () w') : Does (discard x) w P :=
  h.bind fun a w' ha => does_pure (hP a w' ha)

theorem does_build {step : IR.Build α} {b : IR.Builder} (h : step w.builder = .ok a b) (hQ : Q a { w with builder := b }) :
    Does (build step) w Q :=
  does_outcome (run_build.mpr ⟨b, h, rfl⟩) hQ

theorem build_bind {step : IR.Build α} {rest : α → IR.Build β} : build (step >>= rest) = build step >>= fun a => build (rest a) := by
  funext w
  simp only [build, Bind.bind, EStateM.bind, EStateM.run]
  cases step w.builder <;> rfl

/-! ### Types -/

theorem does_typesWith {ids : List TypeId} {next : TypeTable → Lowering β} (h : HasTypes w ids) (hnext : Does (next w.types) w P) :
    Does (typesWith ids >>= next) w P :=
  does_of_ok (run_typesWith.mpr ⟨h, rfl, rfl⟩) hnext

theorem hasTypes_pair {a b : TypeId} (ha : a < w.types.entries.length) (hb : b < w.types.entries.length) : HasTypes w [a, b] := by
  intro x hx
  rcases List.mem_pair.mp hx with rfl | rfl
  · exact ha
  · exact hb

section Types

variable {id : TypeId} (h : id < w.types.entries.length) {loc : Loc}

include h

theorem hasTypes_single : HasTypes w [id] :=
  fun _ hx => List.mem_singleton.mp hx ▸ h

theorem does_nameOf {next : String → Lowering β} (hnext : Does (next (w.types.nameOf id)) w P) : Does (nameOf id >>= next) w P :=
  does_of_ok (run_nameOf.mpr ⟨hasTypes_single h, rfl, rfl⟩) hnext

theorem does_irOf {next : Ty → Lowering β} (hnext : Does (next (w.types.ir id)) w P) : Does (irOf id >>= next) w P :=
  does_of_ok (run_irOf.mpr ⟨hasTypes_single h, rfl, rfl⟩) hnext

theorem does_kindOf {next : TypeKind → Lowering β} (hnext : Does (next (w.types.kind id)) w P) : Does (kindOf id >>= next) w P :=
  does_of_ok (run_kindOf.mpr ⟨hasTypes_single h, rfl, rfl⟩) hnext

theorem does_mismatch {expected : Wanted} : Does (mismatch expected id loc) w Q :=
  does_nameOf h (does_throw rfl)

theorem does_unsupported {op : Operator} : Does (unsupported op id loc) w Q :=
  does_nameOf h (does_throw rfl)

/-- A step behind a mismatch is never taken. -/
theorem does_mismatchAt {got : TypeId} (hgot : got < w.types.entries.length) {expected : String → Wanted} :
    Does (nameOf id >>= fun name => mismatch (expected name) got loc >>= next) w P :=
  does_nameOf h (.stop (does_mismatch hgot))

theorem does_checkSized {next : Unit → Lowering β} (hnext : w.types.isSized id = true → Does (next ()) w P) :
    Does (checkSized id loc >>= next) w P := by
  refine Does.bind (Q := fun _ w' => w.types.isSized id = true ∧ w' = w) (does_typesWith (hasTypes_single h) ?_) fun _ w' ⟨hs, hw⟩ => ?_
  · exact does_ite (fun _ => does_nameOf h (does_throw rfl)) fun hs => does_pure ⟨by simpa using hs, rfl⟩
  · subst hw
    exact hnext hs

end Types

theorem does_tryTypes {step : TypeTable → Except Fault (α × TypeTable)} (hf : ∀ f, step w.types = .error f → f.InSource)
    (hok : ∀ a t, step w.types = .ok (a, t) → Q a { w with types := t }) : Does (tryTypes step) w Q := by
  refine does_of_ok rfl ?_
  cases hr : step w.types with
  | error f => exact does_throw (hf f hr)
  | ok r => exact does_of_ok rfl (does_pure (hok r.1 r.2 hr))

theorem does_resolve {written : TypeRef} {Q : TypeId → Workspace → Prop}
    (hok : ∀ id t, w.types.resolve written = .ok (id, t) → Q id { w with types := t }) : Does (resolve written) w Q := by
  refine does_tryTypes (fun f hf => ?_) hok
  unfold TypeTable.resolve at hf
  split at hf <;> cases hf
  rfl

/-! ### Names -/

theorem does_checkNotReserved {name : String} {next : Unit → Lowering β} (hnext : w.types.count name = 0 → Does (next ()) w P) :
    Does (checkNotReserved name loc >>= next) w P := by
  refine Does.bind (Q := fun _ w' => w.types.count name = 0 ∧ w' = w) (does_of_ok rfl ?_) fun _ w' ⟨hc, hw⟩ => ?_
  · exact does_ite (fun _ => does_throw rfl) fun hc => does_pure ⟨by simpa using hc, rfl⟩
  · subst hw
    exact hnext hc

theorem does_warn {caution : Caution} {next : Unit → Lowering β} (hnext : ∀ journal, Does (next ()) { w with journal } P) :
    Does (warn caution loc >>= next) w P :=
  does_of_ok rfl (hnext _)

theorem does_lookup {name : String} {Q : Operand → Workspace → Prop} (h : ∀ s, w.scopes.find? name = some s → Q s.operand w) :
    Does (lookup name loc) w Q := by
  refine does_of_ok (run_lookup?.mpr ⟨rfl, rfl⟩) ?_
  split
  · exact does_pure (h _ ‹_›)
  · exact does_throw rfl

/-- A name may be given a meaning where there is a scope. -/
theorem does_bind {symbol : Symbol} {Q : Unit → Workspace → Prop} {scope : Scope} {outer : Scopes} (hs : w.scopes = scope :: outer)
    (hQ : Scopes.meaning? symbol.name scope = none → Q () { w with scopes := (symbol :: scope) :: outer }) : Does (bind symbol) w Q := by
  refine does_of_ok rfl ?_
  rw [hs]
  unfold Scopes.bind
  dsimp only
  by_cases hm : (Scopes.meaning? symbol.name scope).isSome = true
  · simp only [hm, if_true]
    exact does_throw rfl
  · simp only [hm]
    exact does_modify (hQ (by simpa using hm))

end Lowering

end Ember
