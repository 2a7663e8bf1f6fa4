import Ember.IR.Arithmetic
import Ember.Pass.Inlining
import Ember.Proofs.IR.Path
import Mathlib.Data.List.Forall2

/-!
# Types of instructions

A value is used in one of two ways (`Grade`): as a datum of a type, or as the address of a cell of a type. The representation
`ptr` alone does not tell them apart, since texts have it too. An `Interface` says how the parameters of every function are
graded and what the cells of the globals hold; the grades of the registers of a function are a parameter of its typing.

A global that may not be assigned is only ever loaded from (`Reads`). Its address has no grade, so nothing else can be done with it.
-/

namespace Ember.IR

/-- How a value is used. -/
inductive Grade where
  | datum (type : Ty)
  /-- The address of a cell of the type. -/
  | address (type : Ty)
deriving DecidableEq

/-- What the functions of a module may rely on about each other and about the globals. -/
structure Interface where
  /-- The grades of the parameters of a function, and its return type. -/
  signature? : String → Option (List Grade × Ty)
  /-- The type of the cell of a global, and whether it may be assigned. -/
  cell? : String → Option (Ty × Bool)

/-- Whether a constant is a value of a type: an integer of an integer type is wrapped to its width. -/
def Constant.Fits : Constant → Ty → Prop
  | .int n, t => t.isInteger = true ∧ t ≠ .bool ∧ t.wrap n = n
  | .bool _, t => t = .bool
  | .float _, t => t.isFloat = true
  | .string _, t => t = .ptr

/-- The grades by which the values of a function are typed. -/
structure Grading where
  interface : Interface
  params : List Grade
  register : Register → Grade

namespace Grading

/-- Whether a value may be used as the grade says. -/
def Has (γ : Grading) : Value → Grade → Prop
  | .register r, g => γ.register r = g
  | .constant c, g => ∃ t, g = .datum t ∧ c.Fits t
  | .parameter i, g => γ.params[i]? = some g
  | .global name, g => ∃ t, γ.interface.cell? name = some (t, true) ∧ g = .address t
  | .function _, _ => False
  | .undef _, g => ∃ t, g = .datum t
  | .unit, g => g = .datum .void

/-- Whether a value may be loaded from: it is the address of a cell of the type, or a global. -/
def Reads (γ : Grading) (v : Value) (t : Ty) : Prop :=
  γ.Has v (.address t) ∨ ∃ name, v = .global name ∧ γ.interface.cell? name = some (t, false)

end Grading

/-- The types between which a conversion is made. -/
def CastOp.Suits (source target : Ty) : CastOp → Prop
  | .trunc | .sext | .zext => source.isInteger = true ∧ target.isInteger = true
  | .sitofp | .uitofp => source.isInteger = true ∧ target.isFloat = true
  | .fptosi | .fptoui => source.isFloat = true ∧ target.isInteger = true
  | .fptrunc | .fpext => source.isFloat = true ∧ target.isFloat = true
  | .bitcast => (source = .i32 ∧ target = .f32) ∨ (source = .f32 ∧ target = .i32)

/-- The types on which a unary operation works. -/
def UnaryOp.Suits (t : Ty) : UnaryOp → Prop
  | .fneg => t.isFloat = true
  | .neg | .not => t.isInteger = true

/-- The types that a comparison compares. -/
def Predicate.Suits (t : Ty) (p : Predicate) : Prop :=
  if p.isFloat then t.isFloat = true else t.isInteger = true

namespace Grading

/-- An instruction is typed: its operands have the grades it needs, and its destination the grade it gives. -/
def Types (γ : Grading) : Instruction → Prop
  | .assign dest value => ∃ t, γ.register dest = .datum t ∧ γ.Has value (.datum t)
  | .binary dest _ type left right =>
    γ.register dest = .datum type ∧ (type.isInteger = true ∨ type.isFloat = true) ∧ γ.Has left (.datum type) ∧
      γ.Has right (.datum type)
  | .compare dest pred type left right =>
    γ.register dest = .datum .bool ∧ pred.Suits type ∧ γ.Has left (.datum type) ∧ γ.Has right (.datum type)
  | .unary dest op type value => γ.register dest = .datum type ∧ op.Suits type ∧ γ.Has value (.datum type)
  | .cast dest op value source target =>
    γ.register dest = .datum target ∧ op.Suits source target ∧ γ.Has value (.datum source)
  | .call dest callee args ret =>
    (∃ grades, γ.interface.signature? callee = some (grades, ret) ∧ List.Forall₂ γ.Has args grades) ∧
      (∀ r, dest = some r → γ.register r = .datum ret) ∧ (dest.isSome = true ↔ ret ≠ .void)
  | .alloca dest type => γ.register dest = .address type
  | .load dest pointer type => γ.register dest = .datum type ∧ γ.Reads pointer type
  | .store pointer value type => γ.Has pointer (.address type) ∧ γ.Has value (.datum type)
  | .phi dest type incoming => γ.register dest = .datum type ∧ ∀ e ∈ incoming, γ.Has e.1 (.datum type)

/-- A terminator is typed in a function that returns `ret`. -/
def TypesEnd (γ : Grading) (ret : Ty) : Terminator → Prop
  | .ret (some value) => ret ≠ .void ∧ γ.Has value (.datum ret)
  | .ret none => ret = .void
  | .branch cond _ _ => γ.Has cond (.datum .bool)
  | .jump _ => True
  | .unreachable => True

end Grading

@[simp] theorem Instruction.mapOperands_id (i : Instruction) : i.mapOperands id = i := by
  cases i <;> simp [mapOperands]

@[simp] theorem Terminator.mapOperands_id (t : Terminator) : t.mapOperands id = t := by
  cases t <;> simp [mapOperands]

namespace Grading

variable {γ γ' : Grading} {σ : Value → Value} {i : Instruction} {v : Value} {t : Ty}

/-- A register that is loaded from is the address of a cell. -/
theorem reads_register {r : Register} : γ.Reads (.register r) t ↔ γ.register r = .address t :=
  or_iff_left fun ⟨_, h, _⟩ => by cases h

/-- Values that keep their grades can be loaded from as before, if globals stay what they are. -/
theorem Reads.map (h : γ.Reads v t) (hcell : γ'.interface.cell? = γ.interface.cell?) (hglobal : ∀ name, v = .global name → σ v = v)
    (hσ : ∀ g, γ.Has v g → γ'.Has (σ v) g) : γ'.Reads (σ v) t := by
  rcases h with h | ⟨name, rfl, h⟩
  · exact .inl (hσ _ h)
  · exact .inr ⟨name, hglobal name rfl, hcell ▸ h⟩

section

variable (h : γ.Types i) (hcell : γ'.interface.cell? = γ.interface.cell?)
  (hI : ∀ callee s, i.callee? = some callee → γ.interface.signature? callee = some s → γ'.interface.signature? callee = some s)
  (hglobal : ∀ name, σ (.global name) = .global name) (hσ : ∀ v ∈ i.operands, ∀ g, γ.Has v g → γ'.Has (σ v) g)
include h hcell hI hglobal hσ

/-- Exchanging operands and destination for others of the same grades keeps an instruction typed. -/
theorem Types.relabel {ρ : Register → Register} (hρ : ∀ r, i.dest? = some r → γ'.register (ρ r) = γ.register r) :
    γ'.Types ((i.mapOperands σ).mapDest ρ) := by
  cases i with
  | assign dest value =>
    obtain ⟨t, hr, hv⟩ := h
    exact ⟨t, (hρ _ rfl).trans hr, hσ _ (by simp [Instruction.operands]) _ hv⟩
  | binary | compare =>
    exact ⟨(hρ _ rfl).trans h.1, h.2.1, hσ _ (by simp [Instruction.operands]) _ h.2.2.1,
      hσ _ (by simp [Instruction.operands]) _ h.2.2.2⟩
  | unary | cast =>
    exact ⟨(hρ _ rfl).trans h.1, h.2.1, hσ _ (by simp [Instruction.operands]) _ h.2.2⟩
  | call dest callee args ret =>
    obtain ⟨⟨grades, hsig, hargs⟩, hdest, hsome⟩ := h
    refine ⟨⟨grades, hI callee _ rfl hsig, ?_⟩, fun r hr => ?_, by rw [Option.isSome_map]; exact hsome⟩
    · rw [List.forall₂_map_left_iff, List.forall₂_iff_get]
      exact ⟨hargs.length_eq, fun n hn hn' => hσ _ (List.get_mem _ _) _ (hargs.get hn hn')⟩
    · obtain ⟨q, rfl, rfl⟩ := Option.map_eq_some_iff.mp hr
      exact (hρ q rfl).trans (hdest q rfl)
  | alloca dest type => exact (hρ _ rfl).trans h
  | load dest pointer type =>
    exact ⟨(hρ _ rfl).trans h.1, h.2.map hcell (fun _ hv => hv ▸ hglobal _) (hσ _ (by simp [Instruction.operands]))⟩
  | store pointer value type =>
    exact ⟨hσ _ (by simp [Instruction.operands]) _ h.1, hσ _ (by simp [Instruction.operands]) _ h.2⟩
  | phi dest type incoming =>
    refine ⟨(hρ _ rfl).trans h.1, fun e he => ?_⟩
    obtain ⟨e', he', rfl⟩ := List.mem_map.mp he
    exact hσ _ (List.mem_map_of_mem he') _ (h.2 e' he')

/-- Exchanging operands for others of the same grades keeps an instruction typed. -/
theorem Types.mapOperands (hρ : ∀ r, i.dest? = some r → γ'.register r = γ.register r) : γ'.Types (i.mapOperands σ) := by
  have hid : (i.mapOperands σ).mapDest id = i.mapOperands σ := by
    cases i <;> simp [Instruction.mapOperands, Instruction.mapDest]
  exact hid ▸ h.relabel hcell hI hglobal hσ hρ

end

/-- Edges of a phi that bring the same values keep it typed. -/
theorem Types.mapIncoming {g : List (Value × BlockId) → List (Value × BlockId)}
    (hg : ∀ incoming, ∀ e ∈ g incoming, ∃ e' ∈ incoming, e'.1 = e.1) (h : γ.Types i) : γ.Types (i.mapIncoming g) := by
  cases i with
  | phi dest type incoming =>
    refine ⟨h.1, fun e he => ?_⟩
    obtain ⟨e', he', heq⟩ := hg incoming e he
    exact heq ▸ h.2 e' he'
  | _ => exact h

/-- Exchanging operands for others of the same grades keeps a terminator typed. -/
theorem TypesEnd.mapOperands {ret : Ty} {t : Terminator} (hσ : ∀ v ∈ t.operands, ∀ g, γ.Has v g → γ'.Has (σ v) g)
    (h : γ.TypesEnd ret t) : γ'.TypesEnd ret (t.mapOperands σ) := by
  cases t with
  | ret value =>
    cases value with
    | none => exact h
    | some v => exact ⟨h.1, hσ _ (by simp [Terminator.operands]) _ h.2⟩
  | branch cond yes no => exact hσ _ (by simp [Terminator.operands]) _ h
  | jump target | unreachable => exact h

end Grading

end Ember.IR
