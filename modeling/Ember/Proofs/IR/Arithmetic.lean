import Ember.Proofs.IR.Typing

/-!
# Results of operations

An operation on values of suitable types gives a value of its result type; only a binary operation may give nothing (it then
traps). Integers come out wrapped to their width.
-/

namespace Ember.IR

variable {t : Ty} {a : Constant}

theorem Ty.wrap_wrap (t : Ty) (n : Int64) : t.wrap (t.wrap n) = t.wrap n := by
  unfold Ty.wrap
  split <;> simp [Int64.and_assoc]

/-- The result of an integer operation is a value of its type. -/
theorem Ty.integer_fits (n : Int64) (h : t.isInteger = true) : (t.integer n).Fits t := by
  unfold Ty.integer
  split
  · assumption
  · rename_i hb
    exact ⟨h, hb, t.wrap_wrap n⟩

/-- The result of a floating-point operation is a value of its type. -/
theorem Ty.floating_fits (x : Double) (h : t.isFloat = true) : (t.floating x).Fits t := by
  unfold Ty.floating
  split <;> exact h

theorem Ty.isInteger_eq_false_of_isFloat (h : t.isFloat = true) : t.isInteger = false := by
  unfold Ty.isFloat at h
  split at h <;> simp_all [Ty.isInteger]

theorem Ty.isFloat_eq_false_of_isInteger (h : t.isInteger = true) : t.isFloat = false := by
  cases hf : t.isFloat with
  | false => rfl
  | true => simp [isInteger_eq_false_of_isFloat hf] at h

/-- Zero is a value of every integer type. -/
theorem Ty.zero_fits (h : t.isInteger = true) (hb : t ≠ .bool) : (Constant.int 0).Fits t := by
  refine ⟨h, hb, ?_⟩
  unfold Ty.wrap
  split <;> rfl

namespace Constant

/-- A value of a floating-point type is a floating-point number. -/
theorem Fits.float {c : Constant} {t : Ty} (h : c.Fits t) (ht : t.isFloat = true) : ∃ x, c = .float x := by
  cases c with
  | float x => exact ⟨x, rfl⟩
  | int n => simp [Ty.isInteger_eq_false_of_isFloat ht, Fits] at h
  | bool b =>
    rw [show t = .bool from h] at ht
    simp [Ty.isFloat] at ht
  | string s =>
    rw [show t = .ptr from h] at ht
    simp [Ty.isFloat] at ht

/-- A value of an integer type has a word. -/
theorem Fits.word {c : Constant} {t : Ty} (h : c.Fits t) (ht : t.isInteger = true) : ∃ n, c.int? = some n := by
  cases c with
  | int n => exact ⟨n, rfl⟩
  | bool b => exact ⟨_, rfl⟩
  | float x => simp [Ty.isInteger_eq_false_of_isFloat (show t.isFloat = true from h)] at ht
  | string s =>
    rw [show t = .ptr from h] at ht
    simp [Ty.isInteger] at ht

end Constant

/-- What a binary operation gives is a value of its type. -/
theorem BinaryOp.result?_fits {op : BinaryOp} {b c : Constant} (ht : t.isInteger = true ∨ t.isFloat = true) (h : op.result? t a b = some c) :
    c.Fits t := by
  unfold BinaryOp.result? at h
  split at h
  · rename_i hf
    simp only [Option.bind_eq_bind, Option.bind_eq_some_iff, Option.pure_def, Option.some.injEq] at h
    obtain ⟨_, -, _, -, _, -, rfl⟩ := h
    exact t.floating_fits _ hf
  · rename_i hf
    simp only [Option.bind_eq_bind, Option.bind_eq_some_iff, Option.pure_def, Option.some.injEq] at h
    obtain ⟨_, -, _, -, _, -, rfl⟩ := h
    exact t.integer_fits _ (ht.resolve_right hf)

/-- A comparison of two values of a suitable type gives a boolean. -/
theorem Predicate.result?_fits {p : Predicate} {b : Constant} (hp : p.Suits t) (ha : a.Fits t) (hb : b.Fits t) :
    ∃ c, p.result? t a b = some c ∧ c.Fits .bool := by
  unfold Predicate.Suits at hp
  unfold Predicate.result?
  split at hp
  · rename_i hf
    obtain ⟨x, rfl⟩ := ha.float hp
    obtain ⟨y, rfl⟩ := hb.float hp
    cases p <;> simp [Predicate.isFloat] at hf <;>
      exact ⟨_, rfl, rfl⟩
  · rename_i hf
    obtain ⟨x, hx⟩ := ha.word hp
    obtain ⟨y, hy⟩ := hb.word hp
    rw [if_neg hf, hx, hy]
    cases p <;> simp [Predicate.isFloat] at hf <;>
      exact ⟨_, rfl, rfl⟩

/-- A unary operation on a value of a suitable type gives a value of it. -/
theorem UnaryOp.result?_fits {op : UnaryOp} (hop : op.Suits t) (ha : a.Fits t) : ∃ c, op.result? t a = some c ∧ c.Fits t := by
  cases op with
  | fneg =>
    obtain ⟨x, rfl⟩ := ha.float hop
    exact ⟨_, rfl, t.floating_fits _ hop⟩
  | neg | not =>
    obtain ⟨n, hn⟩ := ha.word hop
    exact ⟨_, by rw [UnaryOp.result?, hn]; rfl, t.integer_fits _ hop⟩

/-- A conversion of a value between suitable types gives a value of the target. -/
theorem CastOp.result?_fits {op : CastOp} {s : Ty} (hop : op.Suits s t) (ha : a.Fits s) : ∃ c, op.result? a s t = some c ∧ c.Fits t := by
  cases op with
  | trunc | sext | zext =>
    obtain ⟨n, hn⟩ := ha.word hop.1
    exact ⟨_, by rw [CastOp.result?, hn]; rfl, t.integer_fits _ hop.2⟩
  | sitofp | uitofp =>
    obtain ⟨n, hn⟩ := ha.word hop.1
    exact ⟨_, by rw [CastOp.result?, hn]; rfl, t.floating_fits _ hop.2⟩
  | fptosi | fptoui =>
    obtain ⟨x, rfl⟩ := ha.float hop.1
    exact ⟨_, rfl, t.integer_fits _ hop.2⟩
  | fptrunc | fpext =>
    obtain ⟨x, rfl⟩ := ha.float hop.1
    exact ⟨_, rfl, t.floating_fits _ hop.2⟩
  | bitcast =>
    rcases hop with ⟨rfl, rfl⟩ | ⟨rfl, rfl⟩
    · obtain ⟨n, hn⟩ : ∃ n, a = .int n := by
        cases a with
        | int n => exact ⟨n, rfl⟩
        | bool b | string s => simp [Constant.Fits] at ha
        | float x => simp [Constant.Fits, Ty.isFloat] at ha
      subst hn
      exact ⟨_, rfl, rfl⟩
    · obtain ⟨x, rfl⟩ := ha.float rfl
      exact ⟨_, rfl, rfl, by simp, by simp [Ty.wrap]⟩

end Ember.IR
