import Mathlib.Tactic.Simproc.ExistsAndEq

/-!
# Steps one after the other

A sequence of steps comes to a result exactly if its parts do, and a step that only stops comes to none. Read from left to right, these
are the rules by which a run is taken apart.
-/

namespace Ember

variable {ε σ α β : Type} {s s' : σ} {f : α → EStateM ε σ β}

variable {x : EStateM ε σ α} {a : α}

theorem bind_of_ok (h : x s = .ok a s') : (x >>= f) s = f a s' := by
  simp only [Bind.bind, EStateM.bind, h]

theorem bind_of_error {e : ε} (h : x s = .error e s') : (x >>= f) s = .error e s' := by
  simp only [Bind.bind, EStateM.bind, h]

theorem run_bind {b : β} {s'' : σ} : (x >>= f) s = .ok b s'' ↔ ∃ a s', x s = .ok a s' ∧ f a s' = .ok b s'' := by
  simp only [Bind.bind, EStateM.bind]
  cases x s with
  | ok a s' | error e s' => simp

theorem run_pure {b : α} : (pure a : EStateM ε σ α) s = .ok b s' ↔ a = b ∧ s = s' := by
  simp [Pure.pure, EStateM.pure]

theorem run_map {f : α → β} {b : β} : (f <$> x) s = .ok b s' ↔ ∃ a, x s = .ok a s' ∧ f a = b := by
  simp only [Functor.map, EStateM.map]
  cases x s with
  | ok a s' => simp [and_comm]
  | error e s' => simp

theorem throw_apply (e : ε) (s : σ) : (throw e : EStateM ε σ α) s = .error e s :=
  rfl

theorem get_apply (s : σ) : (get : EStateM ε σ σ) s = .ok s s :=
  rfl

theorem modifyGet_apply (f : σ → α × σ) (s : σ) : (modifyGet f : EStateM ε σ α) s = .ok (f s).1 (f s).2 :=
  rfl

theorem run_throw {e : ε} : (throw e : EStateM ε σ α) s = .ok a s' ↔ False := by
  simp [throw_apply]

theorem run_get {a : σ} : (get : EStateM ε σ σ) s = .ok a s' ↔ s = a ∧ s = s' := by
  simp [get_apply]

theorem run_modify {f : σ → σ} {u : Unit} : (modify f : EStateM ε σ Unit) s = .ok u s' ↔ f s = s' := by
  show EStateM.Result.ok () (f s) = .ok u s' ↔ f s = s'
  simp

end Ember
