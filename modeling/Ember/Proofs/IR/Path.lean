import Ember.IR.Module

/-!
# Paths through a function

`Reaches f avoid b` says that block `b` can be entered, from the entry of `f`, without running through a block that `avoid`
accepts. A fact about a run (`Fact`) is given by single instructions: a register is set, a slot is filled. A fact holds at a
place of a block (`Holds`) when every way to that place passes an instruction that gives it; for registers this is dominance of
a use by its definition. The facts are static: what they say about a run is in `Proofs/Machine`.
-/

namespace Ember.IR

/-- What an instruction leaves true for the rest of a run, until it is run again. -/
inductive Fact where
  /-- The register has been set. -/
  | set (r : Register)
  /-- Something has been stored through the register. -/
  | filled (r : Register)
deriving DecidableEq

namespace Instruction

/-- Whether running the instruction makes a fact true. -/
def Gives (i : Instruction) : Fact → Prop
  | .set r => i.dest? = some r
  | .filled r => ∃ value type, i = .store (.register r) value type

/-- Whether the instruction is a phi. -/
def isPhi : Instruction → Bool
  | .phi .. => true
  | _ => false

end Instruction

/-- Whether some instruction of the block makes a fact true. -/
def Block.Gives (b : Block) (k : Fact) : Prop :=
  ∃ i ∈ b.instructions, i.Gives k

namespace Function

/-- The block can be entered without running through a block that `avoid` accepts. -/
inductive Reaches (f : Function) (avoid : Block → Prop) : BlockId → Prop where
  | entry : Reaches f avoid f.entry
  | edge {b s : BlockId} {B : Block} :
      Reaches f avoid b → f.block? b = some B → ¬avoid B → s ∈ B.successors → Reaches f avoid s

/-- The block can be entered at all. -/
def Reachable (f : Function) : BlockId → Prop :=
  f.Reaches fun _ => False

/-- The fact holds at the place of block `b` behind the instructions `before`: one of them gives it, or every way to the
block does. -/
def Holds (f : Function) (k : Fact) (b : BlockId) (before : List Instruction) : Prop :=
  (∃ i ∈ before, i.Gives k) ∨ ¬f.Reaches (·.Gives k) b

/-- The register is the address of a slot of the function. -/
def IsSlot (f : Function) (r : Register) : Prop :=
  ∃ type, .alloca r type ∈ f.instructions

/-- Block `p` may be followed by block `b`. -/
def Precedes (f : Function) (p b : BlockId) : Prop :=
  ∃ P, f.block? p = some P ∧ b ∈ P.successors

end Function

namespace Function

/-! ## Blocks and operands -/

section

variable {f : Function} {b : BlockId} {B : Block} {i : Instruction} {v : Value}

theorem exists_block? (hB : B ∈ f.blocks) : ∃ b, f.block? b = some B :=
  List.mem_iff_getElem?.mp hB

theorem lt_of_block? (hB : f.block? b = some B) : b < f.blocks.length :=
  (List.getElem?_eq_some_iff.mp hB).1

theorem mem_instructions : i ∈ f.instructions ↔ ∃ b B, f.block? b = some B ∧ i ∈ B.instructions := by
  rw [instructions, List.mem_flatMap]
  constructor
  · rintro ⟨B, hB, hi⟩
    obtain ⟨b, hb⟩ := exists_block? hB
    exact ⟨b, B, hb, hi⟩
  · rintro ⟨b, B, hB, hi⟩
    exact ⟨B, List.mem_of_getElem? hB, hi⟩

theorem mem_of_block? (hB : f.block? b = some B) (hi : i ∈ B.instructions) : i ∈ f.instructions :=
  mem_instructions.mpr ⟨b, B, hB, hi⟩

/-- An operand of an instruction is an operand of the function. -/
theorem mem_operands (hi : i ∈ f.instructions) (hv : v ∈ i.operands) : v ∈ f.operands := by
  obtain ⟨B, hB, hiB⟩ := List.mem_flatMap.mp hi
  exact List.mem_flatMap.mpr ⟨B, hB, List.mem_append_left _ (List.mem_flatMap.mpr ⟨i, hiB, hv⟩)⟩

/-- An operand at the end of a block is an operand of the function. -/
theorem mem_operands_end {t : Terminator} (hB : f.block? b = some B) (ht : B.terminator = some t) (hv : v ∈ t.operands) : v ∈ f.operands :=
  List.mem_flatMap.mpr ⟨B, List.mem_of_getElem? hB, List.mem_append_right _ (by rwa [ht])⟩

/-- An operand of a function is one of an instruction, or one at the end of a block. -/
theorem operands_cases (hv : v ∈ f.operands) : (∃ b B i, f.block? b = some B ∧ i ∈ B.instructions ∧ v ∈ i.operands) ∨
    ∃ b B t, f.block? b = some B ∧ B.terminator = some t ∧ v ∈ t.operands := by
  obtain ⟨B, hB, hv⟩ := List.mem_flatMap.mp hv
  obtain ⟨b, hb⟩ := exists_block? hB
  rcases List.mem_append.mp hv with hv | hv
  · obtain ⟨i, hi, hv⟩ := List.mem_flatMap.mp hv
    exact .inl ⟨b, B, i, hb, hi, hv⟩
  · cases ht : B.terminator with
    | none => simp [ht] at hv
    | some t => exact .inr ⟨b, B, t, hb, ht, by simpa only [ht] using hv⟩

end

/-! ## Ways -/

variable {f : Function} {avoid avoid' : Block → Prop} {b : BlockId} {k : Fact} {before : List Instruction}

/-- Avoiding less leaves more ways. -/
theorem Reaches.mono (h : ∀ B, B ∈ f.blocks → avoid B → avoid' B) (hr : f.Reaches avoid' b) : f.Reaches avoid b := by
  induction hr with
  | entry => exact .entry
  | edge _ hB hn hs ih => exact ih.edge hB (fun ha => hn (h _ (List.mem_of_getElem? hB) ha)) hs

/-- A fact that holds at a place holds further down in the block. -/
theorem Holds.append (h : f.Holds k b before) (more : List Instruction) : f.Holds k b (before ++ more) := by
  rcases h with ⟨i, hi, hg⟩ | h
  · exact .inl ⟨i, List.mem_append_left _ hi, hg⟩
  · exact .inr h

/-- A fact holds behind the instruction that gives it. -/
theorem Holds.of_gives {i : Instruction} (hi : i ∈ before) (hg : i.Gives k) : f.Holds k b before :=
  .inl ⟨i, hi, hg⟩

/-- What holds at the end of every block before it holds at the start of a block that is not the entry. -/
theorem Holds.of_precedes (hb : b ≠ f.entry)
    (h : ∀ p P, f.block? p = some P → b ∈ P.successors → f.Holds k p P.instructions) : f.Holds k b [] := by
  refine .inr fun hr => ?_
  cases hr with
  | entry => exact hb rfl
  | edge hp hP hn hs =>
    rcases h _ _ hP hs with hg | hno
    · exact hn hg
    · exact hno hp

/-- What holds at the start of a block holds at the end of every block before it, provided that one can be entered. -/
theorem Holds.at_end {p : BlockId} {P : Block} (h : f.Holds k b []) (hP : f.block? p = some P) (hs : b ∈ P.successors) :
    f.Holds k p P.instructions := by
  rcases h with ⟨i, hi, -⟩ | h
  · exact absurd hi (List.not_mem_nil)
  · by_cases hg : P.Gives k
    · exact .inl hg
    · exact .inr fun hr => h (hr.edge hP hg hs)

/-- What holds at some place of the entry holds in every other block. -/
theorem Holds.outside_entry {E : Block} {pre post : List Instruction} (hE : f.block? f.entry = some E)
    (hl : E.instructions = pre ++ post) (h : f.Holds k f.entry pre) (hb : b ≠ f.entry)
    (before : List Instruction) : f.Holds k b before := by
  have hgives : E.Gives k := by
    rcases h with ⟨i, hi, hg⟩ | h
    · exact ⟨i, by simp [hl, hi], hg⟩
    · exact absurd .entry h
  refine .inr fun hr => ?_
  induction hr with
  | entry => exact hb rfl
  | @edge p s P _ hP hn _ ih =>
    refine ih fun hp => hn ?_
    obtain rfl : E = P := Option.some.inj (hE.symm.trans (hp ▸ hP))
    exact hgives

/-- Ways of another function: if its entry and its edges are those of a function up to `place`, so are its ways. -/
theorem Reaches.transfer {f' : Function} (place : BlockId → BlockId) {b : BlockId} (hentry : f.Reaches avoid (place f'.entry))
    (hedge : ∀ b B s, f'.block? b = some B → ¬avoid' B → s ∈ B.successors → f.Reaches avoid (place b) →
      f.Reaches avoid (place s)) (hr : f'.Reaches avoid' b) : f.Reaches avoid (place b) := by
  induction hr with
  | entry => exact hentry
  | edge _ hB hn hs ih => exact hedge _ _ _ hB hn hs ih

end Function

end Ember.IR
