import Ember.IR.Check
import Ember.Proofs.IR.Typing
import Mathlib.Data.List.Nodup
import Mathlib.Data.List.Pairwise

/-!
# Well-formed functions and modules

What lowering establishes and every pass keeps. A function has a shape (`Shaped`: its blocks end, its registers are set once, its
phis stand first and match the edges, its slots are allocated at the start), every value is there where it is used (`Settled`),
every instruction is typed (`Typed`), and no run comes to an end that is not meant to be reached. The main statement here is that
such a module passes the check of the compiler (`WellFormed.check_eq_ok`), which is weaker: it looks neither at ways through a
function nor at the edges of a phi.
-/

namespace Ember.IR

/-- The operands through which an instruction reads a cell, or lets another function read it. -/
def Instruction.reading : Instruction → List Value
  | .load _ pointer _ => [pointer]
  | .call _ _ args _ => args
  | _ => []

/-- What others see of a function. -/
def Function.head (f : Function) : String × List (String × Ty) × Ty :=
  (f.name, f.params, f.ret)

namespace Function

/-- The facts on which an instruction relies: the registers it names are set, and the slots it reads are filled. -/
def Needs (f : Function) (i : Instruction) : Fact → Prop
  | .set r => .register r ∈ i.operands
  | .filled r => f.IsSlot r ∧ .register r ∈ i.reading

/-- The shape of a function with a body. -/
structure Shaped (f : Function) : Prop where
  entry_lt : f.entry < f.blocks.length
  ids : ∀ b B, f.block? b = some B → B.id = b
  labels : f.labels.Nodup
  once : (f.instructions.filterMap (·.dest?)).Nodup
  sized : ∀ i ∈ f.instructions, ∀ r, i.dest? = some r → r < f.registers.size
  defined : ∀ r, .register r ∈ f.operands → ∃ i ∈ f.instructions, i.dest? = some r
  ended : ∀ B ∈ f.blocks, B.terminator.isSome
  targets : ∀ B ∈ f.blocks, ∀ s ∈ B.successors, s < f.blocks.length
  entry_free : ∀ B ∈ f.blocks, f.entry ∉ B.successors
  phi_first : ∀ B ∈ f.blocks, ∀ i ∈ B.instructions.tail, i.isPhi = false
  phi_entry : ∀ B, f.block? f.entry = some B → ∀ i ∈ B.instructions, i.isPhi = false
  phi_edges : ∀ b B dest type incoming rest, f.block? b = some B → B.instructions = .phi dest type incoming :: rest →
    (incoming.map (·.2)).Nodup ∧ ∀ p, p ∈ incoming.map (·.2) ↔ f.Precedes p b
  slots_first : ∀ b B, f.block? b = some B → ∃ slots rest, B.instructions = slots ++ rest ∧
    (∀ i ∈ slots, i.isAlloca = true) ∧ (∀ i ∈ rest, i.isAlloca = false) ∧ (b ≠ f.entry → slots = [])

/-- Every value is there where it is used. An operand of a phi is used at the end of the block that it comes from. -/
structure Settled (f : Function) : Prop where
  at_instruction : ∀ b B before i after, f.block? b = some B → B.instructions = before ++ i :: after → i.isPhi = false →
    ∀ k, f.Needs i k → f.Holds k b before
  at_end : ∀ b B t r, f.block? b = some B → B.terminator = some t → .register r ∈ t.operands →
    f.Holds (.set r) b B.instructions
  at_edge : ∀ B ∈ f.blocks, ∀ dest type incoming, .phi dest type incoming ∈ B.instructions →
    ∀ r p P, (.register r, p) ∈ incoming → f.block? p = some P → f.Holds (.set r) p P.instructions

/-- Every instruction is typed, for some grades of the registers. -/
def Typed (I : Interface) (f : Function) : Prop :=
  ∃ γ : Grading, γ.interface = I ∧ I.signature? f.name = some (γ.params, f.ret) ∧ γ.params.length = f.params.length ∧
    (∀ i ∈ f.instructions, γ.Types i) ∧ ∀ B ∈ f.blocks, ∀ t, B.terminator = some t → γ.TypesEnd f.ret t

/-- A function with a body is well formed. -/
structure WellFormed (I : Interface) (f : Function) : Prop where
  shaped : f.Shaped
  settled : f.Settled
  typed : f.Typed I
  no_dead_end : ∀ b B, f.Reachable b → f.block? b = some B → B.terminator ≠ some .unreachable

/-- A well-formed function has a body. -/
theorem WellFormed.isDeclaration_eq {I : Interface} {f : Function} (hf : f.WellFormed I) : f.isDeclaration = false := by
  have := hf.shaped.entry_lt
  cases hb : f.blocks with
  | nil => simp [hb] at this
  | cons B Bs => simp [isDeclaration, hb]

end Function

/-- A module is well formed: its names are, its functions with a body are, and it has every function and global of the interface. -/
structure Module.WellFormed (I : Interface) (m : Module) : Prop where
  names : (m.functions.map (·.name)).Nodup
  global_names : (m.globals.map (·.name)).Nodup
  signed : ∀ f ∈ m.functions, ∃ grades, I.signature? f.name = some (grades, f.ret) ∧ grades.length = f.params.length
  callable : ∀ name signature, I.signature? name = some signature → ∃ g ∈ m.functions, g.name = name
  bodies : ∀ f ∈ m.functions, f.isDeclaration = false → f.WellFormed I
  globals : ∀ g ∈ m.globals, I.cell? g.name = some (g.type, g.mutable) ∧ g.init.Fits g.type
  cells : ∀ name cell, I.cell? name = some cell → ∃ g ∈ m.globals, g.name = name

variable {f : Function} {B : Block} {i : Instruction} {r : Register}

/-- A block of a function is found by its name. -/
theorem Function.Shaped.block?_id (h : f.Shaped) (hB : B ∈ f.blocks) : f.block? B.id = some B := by
  obtain ⟨b, hb⟩ := exists_block? hB
  rw [h.ids b B hb]
  exact hb

namespace Function

/-- Allocas stand first in a row of instructions. -/
def SlotsFirst (l : List Instruction) : Prop :=
  ∃ slots rest, l = slots ++ rest ∧ (∀ i ∈ slots, i.isAlloca = true) ∧ ∀ i ∈ rest, i.isAlloca = false

section SlotsFirst

variable {l before after : List Instruction} {b : BlockId}

/-- Allocas stand first if only allocas stand before an alloca. -/
theorem slotsFirst_iff : SlotsFirst l ↔ l.Pairwise fun i j => j.isAlloca = true → i.isAlloca = true := by
  constructor
  · rintro ⟨slots, rest, rfl, hs, hr⟩
    refine List.pairwise_append.mpr ⟨List.pairwise_of_forall_mem_list fun i hi _ _ _ => hs i hi,
      List.pairwise_of_forall_mem_list fun _ _ j hj ha => ?_, fun i hi _ _ _ => hs i hi⟩
    simp [hr j hj] at ha
  · intro h
    induction l with
    | nil => exact ⟨[], [], rfl, by simp, by simp⟩
    | cons i l ih =>
      obtain ⟨hi, hl⟩ := List.pairwise_cons.mp h
      cases ha : i.isAlloca with
      | true =>
        obtain ⟨slots, rest, rfl, hs, hr⟩ := ih hl
        exact ⟨i :: slots, rest, rfl, by simpa [ha] using hs, hr⟩
      | false => exact ⟨[], i :: l, rfl, by simp, by simpa [ha] using hi⟩

theorem SlotsFirst.map (hl : SlotsFirst l) {g : Instruction → Instruction} (hg : ∀ i, (g i).isAlloca = i.isAlloca) :
    SlotsFirst (l.map g) := by
  rw [slotsFirst_iff] at hl ⊢
  simpa [List.pairwise_map, hg] using hl

theorem SlotsFirst.append (hl : SlotsFirst l) (hr : ∀ i ∈ after, i.isAlloca = false) : SlotsFirst (l ++ after) := by
  obtain ⟨slots, rest, rfl, hs, hrest⟩ := hl
  exact ⟨slots, rest ++ after, List.append_assoc .., hs, List.forall_mem_append.mpr ⟨hrest, hr⟩⟩

/-- In a row in which allocas stand first, none stands behind another instruction. -/
theorem SlotsFirst.split (hl : SlotsFirst (before ++ i :: after)) (hi : i.isAlloca = false) :
    SlotsFirst before ∧ ∀ j ∈ after, j.isAlloca = false := by
  obtain ⟨hbefore, hrest, -⟩ := List.pairwise_append.mp (slotsFirst_iff.mp hl)
  refine ⟨slotsFirst_iff.mpr hbefore, fun j hj => ?_⟩
  simpa [hi] using (List.pairwise_cons.mp hrest).1 j hj

/-- The slots of a block, if only the entry has any. -/
theorem SlotsFirst.parts (hl : SlotsFirst l) (hb : b ≠ f.entry → ∀ i ∈ l, i.isAlloca = false) : ∃ slots rest, l = slots ++ rest ∧
    (∀ i ∈ slots, i.isAlloca = true) ∧ (∀ i ∈ rest, i.isAlloca = false) ∧ (b ≠ f.entry → slots = []) := by
  by_cases he : b = f.entry
  · obtain ⟨slots, rest, rfl, hs, hr⟩ := hl
    exact ⟨slots, rest, rfl, hs, hr, absurd he⟩
  · exact ⟨[], l, rfl, by simp, hb he, fun _ => rfl⟩

theorem Shaped.slotsFirst (h : f.Shaped) (hB : f.block? b = some B) : SlotsFirst B.instructions := by
  obtain ⟨slots, rest, hl, hs, hr, -⟩ := h.slots_first b B hB
  exact ⟨slots, rest, hl, hs, hr⟩

theorem Shaped.isAlloca_outside_entry (h : f.Shaped) (hB : f.block? b = some B) (hb : b ≠ f.entry) (hi : i ∈ B.instructions) :
    i.isAlloca = false := by
  obtain ⟨slots, rest, hl, -, hr, he⟩ := h.slots_first b B hB
  rw [hl, he hb] at hi
  exact hr i hi

end SlotsFirst

end Function

/-- A phi, spelled out. -/
theorem Instruction.eq_phi (h : i.isPhi = true) : ∃ dest type incoming, i = .phi dest type incoming := by
  cases i <;> simp_all [isPhi]

/-- Nothing stands before a phi. -/
theorem Function.Shaped.phi_head (h : f.Shaped) (hB : B ∈ f.blocks) {before after : List Instruction}
    (hl : B.instructions = before ++ i :: after) (hi : i.isPhi = true) : before = [] := by
  cases before with
  | nil => rfl
  | cons j before =>
    have := h.phi_first B hB i (by simp [hl])
    simp [hi] at this

/-- The edges of a phi, wherever it stands. -/
theorem Function.Shaped.phi_edges_of_mem (h : f.Shaped) {b : BlockId} {dest : Register} {type : Ty} {incoming : List (Value × BlockId)}
    (hB : f.block? b = some B) (hi : .phi dest type incoming ∈ B.instructions) :
    (incoming.map (·.2)).Nodup ∧ ∀ p, p ∈ incoming.map (·.2) ↔ f.Precedes p b := by
  obtain ⟨before, after, hl⟩ := List.append_of_mem hi
  obtain rfl := h.phi_head (List.mem_of_getElem? hB) hl rfl
  exact h.phi_edges b B dest type incoming after hB hl

/-- If a function takes no value twice on a list, members with the same value are the same. -/
theorem eq_of_nodup_filterMap {α β : Type} {g : α → Option β} {l : List α} (h : (l.filterMap g).Nodup) {a b : α}
    (ha : a ∈ l) (hb : b ∈ l) {c : β} (hac : g a = some c) (hbc : g b = some c) : a = b := by
  have : Std.Symm fun a a' => ∀ b, g a = some b → ∀ b', g a' = some b' → b ≠ b' :=
    ⟨fun _ _ hne b hb b' hb' => (hne b' hb' b hb).symm⟩
  by_contra hne
  exact (List.pairwise_filterMap.mp h).forall ha hb hne c hac c hbc rfl

/-- A register that is set once is set at one place only. -/
theorem Function.unique_of_once (h : (f.instructions.filterMap (·.dest?)).Nodup) {p q : BlockId} {P Q : Block} (hP : f.block? p = some P)
    (hQ : f.block? q = some Q) {j : Instruction} (hi : i ∈ P.instructions) (hj : j ∈ Q.instructions) (hir : i.dest? = some r)
    (hjr : j.dest? = some r) : p = q ∧ i = j := by
  have hsplit : f.instructions.filterMap (·.dest?) = f.blocks.flatMap fun B => B.instructions.filterMap (·.dest?) := by
    rw [Function.instructions, List.filterMap_flatMap]
  obtain ⟨hin, hdis⟩ := List.nodup_flatMap.mp (hsplit ▸ h)
  have hmem : ∀ {B : Block} {i : Instruction}, i ∈ B.instructions → i.dest? = some r →
      r ∈ B.instructions.filterMap (·.dest?) := fun hi hr => List.mem_filterMap.mpr ⟨_, hi, hr⟩
  have hpq : p = q := by
    obtain ⟨hp, rfl⟩ := List.getElem?_eq_some_iff.mp hP
    obtain ⟨hq, rfl⟩ := List.getElem?_eq_some_iff.mp hQ
    rw [List.pairwise_iff_getElem] at hdis
    rcases Nat.lt_trichotomy p q with hlt | heq | hlt
    · exact (hdis p q hp hq hlt (hmem hi hir) (hmem hj hjr)).elim
    · exact heq
    · exact (hdis q p hq hp hlt (hmem hj hjr) (hmem hi hir)).elim
  subst hpq
  obtain rfl : P = Q := Option.some.inj (hP.symm.trans hQ)
  exact ⟨rfl, eq_of_nodup_filterMap (hin P (List.mem_of_getElem? hP)) hi hj hir hjr⟩

/-- A register is set at one place only. -/
theorem Function.Shaped.unique (h : f.Shaped) {p q : BlockId} {P Q : Block} (hP : f.block? p = some P) (hQ : f.block? q = some Q)
    {j : Instruction} (hi : i ∈ P.instructions) (hj : j ∈ Q.instructions) (hir : i.dest? = some r) (hjr : j.dest? = some r) :
    p = q ∧ i = j :=
  unique_of_once h.once hP hQ hi hj hir hjr

/-- A register is set once, if it is set once in every block, and in one block only. -/
theorem Function.once_of_blocks (hin : ∀ B ∈ f.blocks, (B.instructions.filterMap (·.dest?)).Nodup)
    (hdis : ∀ p q P Q i j r, f.block? p = some P → f.block? q = some Q → i ∈ P.instructions → j ∈ Q.instructions →
      i.dest? = some r → j.dest? = some r → p = q) : (f.instructions.filterMap (·.dest?)).Nodup := by
  rw [Function.instructions, List.filterMap_flatMap, List.nodup_flatMap]
  refine ⟨hin, List.pairwise_iff_getElem.mpr fun p q hp hq hlt r hr hr' => ?_⟩
  obtain ⟨i, hi, hir⟩ := List.mem_filterMap.mp hr
  obtain ⟨j, hj, hjr⟩ := List.mem_filterMap.mp hr'
  exact Nat.ne_of_lt hlt (hdis p q _ _ i j r (List.getElem?_eq_getElem hp) (List.getElem?_eq_getElem hq) hi hj hir hjr)

/-- If a register is set once, every block sets it once. -/
theorem Function.once_block_of_once (h : (f.instructions.filterMap (·.dest?)).Nodup) (hB : B ∈ f.blocks) :
    (B.instructions.filterMap (·.dest?)).Nodup := by
  rw [Function.instructions, List.filterMap_flatMap, List.nodup_flatMap] at h
  exact h.1 B hB

/-- A block sets a register once. -/
theorem Function.Shaped.once_block (h : f.Shaped) (hB : B ∈ f.blocks) : (B.instructions.filterMap (·.dest?)).Nodup :=
  once_block_of_once h.once hB

/-- A register that is used has a type. -/
theorem Function.Shaped.operand_lt (h : f.Shaped) (hr : .register r ∈ f.operands) : r < f.registers.size := by
  obtain ⟨i, hi, hir⟩ := h.defined r hr
  exact h.sized i hi r hir

/-! ## The check -/

/-- Two checks pass one after the other exactly when both do. -/
theorem bind_eq_ok_iff {ε α β : Type} {x : Except ε α} {next : α → Except ε β} {b : β} :
    x >>= next = .ok b ↔ ∃ a, x = .ok a ∧ next a = .ok b := by
  cases x <;> simp [bind, Except.bind]

/-- A list of checks passes exactly when each of them does. -/
theorem forM_eq_ok_iff {α ε : Type} (check : α → Except ε Unit) (l : List α) : l.forM check = .ok () ↔ ∀ a ∈ l, check a = .ok () := by
  induction l with
  | nil => exact ⟨nofun, fun _ => rfl⟩
  | cons a l ih =>
    have hc : (a :: l).forM check = (check a >>= fun _ => l.forM check) := rfl
    rw [hc, List.forall_mem_cons, ← ih, bind_eq_ok_iff]
    exact ⟨fun ⟨_, ha, hl⟩ => ⟨ha, hl⟩, fun ⟨ha, hl⟩ => ⟨(), ha, hl⟩⟩

namespace Function

/-- The defined registers are collected exactly when each has a type and none is met twice. -/
theorem collectDefined_eq_ok_iff {f : Function} {l : List Instruction} {seen defined : List Register} :
    f.collectDefined seen l = .ok defined ↔ defined = (l.filterMap (·.dest?)).reverse ++ seen ∧ (l.filterMap (·.dest?)).Nodup ∧
      ∀ r ∈ l.filterMap (·.dest?), r < f.registers.size ∧ r ∉ seen := by
  induction l generalizing seen with
  | nil => simp [collectDefined, eq_comm]
  | cons i l ih =>
    cases hi : i.dest? with
    | none => simp only [collectDefined, hi, List.filterMap_cons_none, ih]
    | some q =>
      rw [List.filterMap_cons_some hi]
      simp only [collectDefined, hi, List.reverse_cons, List.append_assoc, List.singleton_append, List.nodup_cons, List.forall_mem_cons,
        List.contains_iff_mem]
      split
      · rename_i hq
        exact ⟨nofun, fun h => absurd h.2.2.1.1 (Nat.not_lt.mpr hq)⟩
      · split
        · rename_i hs
          exact ⟨nofun, fun h => absurd hs h.2.2.1.2⟩
        · rw [ih]
          grind

end Function

namespace Grading

variable {γ : Grading} {v : Value}

/-- The value has a grade, or is a global that may be loaded from. -/
def Knows (γ : Grading) (v : Value) : Prop :=
  (∃ g, γ.Has v g) ∨ ∃ name cell, v = .global name ∧ γ.interface.cell? name = some cell

theorem Reads.knows {t : Ty} (h : γ.Reads v t) : γ.Knows v :=
  h.imp (⟨_, ·⟩) fun ⟨name, hv, hcell⟩ => ⟨name, _, hv, hcell⟩

/-- Every operand of a typed instruction is known. -/
theorem Types.operand {i : Instruction} (h : γ.Types i) (hv : v ∈ i.operands) : γ.Knows v := by
  cases i with
  | assign dest value =>
    obtain ⟨t, -, ht⟩ := h
    exact .inl ⟨_, List.mem_singleton.mp hv ▸ ht⟩
  | binary dest op type left right | compare dest pred type left right =>
    obtain ⟨-, -, hl, hr⟩ := h
    rcases List.mem_pair.mp hv with rfl | rfl
    · exact .inl ⟨_, hl⟩
    · exact .inl ⟨_, hr⟩
  | unary dest op type value | cast dest op value source target => exact .inl ⟨_, List.mem_singleton.mp hv ▸ h.2.2⟩
  | call dest callee args ret =>
    obtain ⟨⟨grades, -, ha⟩, -⟩ := h
    obtain ⟨n, hn, rfl⟩ := List.mem_iff_getElem.mp hv
    exact .inl ⟨_, ha.get hn (ha.length_eq ▸ hn)⟩
  | alloca dest type => exact absurd hv List.not_mem_nil
  | load dest pointer type => exact (List.mem_singleton.mp hv ▸ h.2).knows
  | store pointer value type =>
    rcases List.mem_pair.mp hv with rfl | rfl
    · exact .inl ⟨_, h.1⟩
    · exact .inl ⟨_, h.2⟩
  | phi dest type incoming =>
    obtain ⟨e, he, rfl⟩ := List.mem_map.mp hv
    exact .inl ⟨_, h.2 e he⟩

/-- Every operand of a typed terminator is known. -/
theorem TypesEnd.operand {ret : Ty} {t : Terminator} (h : γ.TypesEnd ret t) (hv : v ∈ t.operands) : γ.Knows v := by
  cases t with
  | ret value =>
    cases value with
    | none => exact absurd hv List.not_mem_nil
    | some w => exact .inl ⟨_, List.mem_singleton.mp hv ▸ h.2⟩
  | branch cond yes no => exact .inl ⟨_, List.mem_singleton.mp hv ▸ h⟩
  | jump target | unreachable => exact absurd hv List.not_mem_nil

end Grading

namespace Module

variable {I : Interface} {m : Module} {f : Function}

/-- What is found by a name is a function of the module of that name. -/
theorem mem_of_function? {name : String} (h : m.function? name = some f) : f ∈ m.functions ∧ f.name = name :=
  ⟨List.mem_of_find?_eq_some h, by simpa using List.find?_some h⟩

variable (h : m.WellFormed I)
include h

/-- A function of a module is found by its name. -/
theorem WellFormed.function?_eq (hf : f ∈ m.functions) : m.function? f.name = some f := by
  obtain ⟨g, hg⟩ : ∃ g, m.function? f.name = some g := Option.isSome_iff_exists.mp (by
    rw [Module.function?, List.find?_isSome]
    exact ⟨f, hf, beq_self_eq_true _⟩)
  obtain ⟨hmem, hname⟩ := mem_of_function? hg
  rw [hg, List.inj_on_of_nodup_map h.names hmem hf hname]

/-- A cell of the interface is that of a global. -/
theorem WellFormed.exists_global {name : String} {type : Ty} {mutable : Bool} (hcell : I.cell? name = some (type, mutable)) :
    ∃ g ∈ m.globals, g.name = name ∧ g.type = type ∧ g.mutable = mutable := by
  obtain ⟨g, hg, rfl⟩ := h.cells name _ hcell
  rw [(h.globals g hg).1] at hcell
  cases hcell
  exact ⟨g, hg, rfl, rfl, rfl⟩

/-- A known value of a function of a well-formed module passes the check of values. -/
theorem WellFormed.checkValue_eq_ok {γ : Grading} (hI : γ.interface = I) (hp : γ.params.length = f.params.length) {defined : List Register}
    {v : Value} (hv : γ.Knows v) (hd : ∀ r, v = .register r → r ∈ defined) : f.checkValue m defined v = .ok () := by
  cases v with
  | register r => simp [Function.checkValue, hd r rfl]
  | parameter i =>
    rcases hv with ⟨g, hg⟩ | ⟨_, _, hv, -⟩
    · have hi : i < f.params.length := hp ▸ (List.getElem?_eq_some_iff.mp hg).1
      simp [Function.checkValue, hi]
    · cases hv
  | global name =>
    obtain ⟨cell, hcell⟩ : ∃ cell, γ.interface.cell? name = some cell := by
      rcases hv with ⟨g, t, ht, -⟩ | ⟨_, cell, hv, hcell⟩
      · exact ⟨_, ht⟩
      · cases hv
        exact ⟨cell, hcell⟩
    obtain ⟨x, hx, hn⟩ := h.cells name cell (hI ▸ hcell)
    have hs : (m.global? name).isSome := by
      rw [Module.global?, List.find?_isSome]
      exact ⟨x, hx, beq_iff_eq.mpr hn⟩
    simp [Function.checkValue, hs]
  | constant c | function name | undef t | unit => rfl

/-- An instruction of a well-formed function passes the check of instructions, if its operands pass theirs: its callee is there
and fits, and the edges of a phi start at blocks. -/
theorem WellFormed.checkInstruction_eq_ok (hw : f.WellFormed I) {defined : List Register} {B : Block} (hB : B ∈ f.blocks) {i : Instruction}
    (hi : i ∈ B.instructions) (hops : i.operands.forM (f.checkValue m defined) = .ok ()) :
    f.checkInstruction m defined B.label i = .ok () := by
  have hmem : i ∈ f.instructions := List.mem_flatMap.mpr ⟨B, hB, hi⟩
  obtain ⟨γ, hI, -, -, hty, -⟩ := hw.typed
  unfold Function.checkInstruction
  rw [hops]
  cases i with
  | call dest callee args ret =>
    obtain ⟨⟨grades, hsig, hargs⟩, -, hdest⟩ := hty _ hmem
    rw [hI] at hsig
    obtain ⟨g, hg, rfl⟩ := h.callable callee _ hsig
    obtain ⟨grades', hsig', hlen⟩ := h.signed g hg
    rw [hsig', Option.some.injEq, Prod.mk.injEq] at hsig
    obtain ⟨rfl, rfl⟩ := hsig
    have hcount : g.params.length = args.length := by rw [← hlen, hargs.length_eq]
    simp only [h.function?_eq hg, hcount]
    by_cases hv : g.ret = .void
    · simp_all [bind, Except.bind, pure, Except.pure]
    · simp_all [bind, Except.bind, pure, Except.pure]
  | phi dest type incoming =>
    obtain ⟨b, hb⟩ := Function.exists_block? hB
    have hsrc := (hw.shaped.phi_edges_of_mem hb hi).2
    show incoming.forM _ = _
    rw [forM_eq_ok_iff]
    rintro ⟨v, p⟩ he
    obtain ⟨P, hP, -⟩ := (hsrc p).mp (List.mem_map.mpr ⟨_, he, rfl⟩)
    have hlt := Function.lt_of_block? hP
    simp [Function.checkTarget, hlt]
  | _ => rfl

/-- A function with a body of a well-formed module passes the check of functions. -/
theorem WellFormed.function_check_eq_ok (hw : f.WellFormed I) : f.check m = .ok () := by
  obtain ⟨γ, hI, hsig, hp, hty, hend⟩ := hw.typed
  obtain ⟨defined, hdefined⟩ : ∃ defined, defined = (f.instructions.filterMap (·.dest?)).reverse ++ [] := ⟨_, rfl⟩
  have hdef : f.collectDefined [] f.instructions = .ok defined := by
    refine Function.collectDefined_eq_ok_iff.mpr ⟨hdefined, hw.shaped.once, fun r hr => ?_⟩
    obtain ⟨i, hi, hir⟩ := List.mem_filterMap.mp hr
    exact ⟨hw.shaped.sized i hi r hir, List.not_mem_nil⟩
  have hreg : ∀ r, .register r ∈ f.operands → r ∈ defined := fun r hr => by
    obtain ⟨i, hi, hir⟩ := hw.shaped.defined r hr
    simpa [hdefined] using ⟨i, hi, hir⟩
  have hblocks : f.blocks.forM (f.checkBlock m defined) = .ok () := by
    rw [forM_eq_ok_iff]
    intro B hB
    obtain ⟨b, hb⟩ := Function.exists_block? hB
    have hins : B.instructions.forM (f.checkInstruction m defined B.label) = .ok () := by
      rw [forM_eq_ok_iff]
      intro i hi
      have hmem : i ∈ f.instructions := List.mem_flatMap.mpr ⟨B, hB, hi⟩
      have hops : i.operands.forM (f.checkValue m defined) = .ok () := by
        rw [forM_eq_ok_iff]
        intro v hv
        exact h.checkValue_eq_ok hI hp ((hty i hmem).operand hv) fun r hr => hreg r (Function.mem_operands hmem (hr ▸ hv))
      exact h.checkInstruction_eq_ok hw hB hi hops
    obtain ⟨t, ht⟩ := Option.isSome_iff_exists.mp (hw.shaped.ended B hB)
    have hops : t.operands.forM (f.checkValue m defined) = .ok () := by
      rw [forM_eq_ok_iff]
      intro v hv
      exact h.checkValue_eq_ok hI hp ((hend B hB t ht).operand hv) fun r hr => hreg r (Function.mem_operands_end hb ht (hr ▸ hv))
    have hsucc : t.successors.forM (f.checkTarget B.label) = .ok () := by
      rw [forM_eq_ok_iff]
      intro s hs
      have hlt : s < f.blocks.length := hw.shaped.targets B hB s (by simpa [Block.successors, ht] using hs)
      simp [Function.checkTarget, hlt]
    have hret : f.checkTerminator m defined B.label t = .ok () := by
      unfold Function.checkTerminator
      rw [hops, hsucc]
      have hty := hend B hB t ht
      cases t with
      | ret value =>
        cases value with
        | none | some v => simp_all [Grading.TypesEnd, bind, Except.bind, pure, Except.pure]
      | branch cond yes no | jump target | unreachable => rfl
    simp [Function.checkBlock, hins, ht, hret, bind, Except.bind]
  have hbody := hw.isDeclaration_eq
  have hentry : ¬f.blocks.length ≤ f.entry := Nat.not_le.mpr hw.shaped.entry_lt
  simp [Function.check, hbody, hentry, hdef, hblocks, bind, Except.bind]

/-- A well-formed module passes the check. -/
theorem WellFormed.check_eq_ok : m.check = .ok () := by
  unfold Module.check
  rw [forM_eq_ok_iff]
  intro f hf
  have hf' : f.check m = .ok () := by
    cases hb : f.isDeclaration with
    | true => simp [Function.check, hb]
    | false => exact h.function_check_eq_ok (h.bodies f hf hb)
  rw [hf']

/-- Exchanging functions for others that look the same from outside keeps a module well formed, if their bodies are. -/
theorem WellFormed.exchange {m' : Module} (hglobals : m'.globals = m.globals)
    (hfunctions : List.Forall₂ (fun f f' => f'.head = f.head ∧ (f'.isDeclaration = false → f'.WellFormed I))
      m.functions m'.functions) : m'.WellFormed I := by
  have hheads : m'.functions.map (·.head) = m.functions.map (·.head) := by
    rw [← List.forall₂_eq_eq_eq, List.forall₂_map_left_iff, List.forall₂_map_right_iff]
    exact hfunctions.flip.imp fun _ _ h => h.1
  have hnames : m'.functions.map (·.name) = m.functions.map (·.name) := by
    have := congrArg (List.map (·.1)) hheads
    rwa [List.map_map, List.map_map] at this
  have horigin : ∀ f' ∈ m'.functions, ∃ f ∈ m.functions, f'.head = f.head ∧ (f'.isDeclaration = false → f'.WellFormed I) := by
    intro f' hf'
    obtain ⟨n, hn, rfl⟩ := List.mem_iff_getElem.mp hf'
    have hn' : n < m.functions.length := hfunctions.length_eq ▸ hn
    exact ⟨_, List.getElem_mem hn', hfunctions.get hn' hn⟩
  exact {
    names := hnames ▸ h.names
    global_names := hglobals ▸ h.global_names
    signed := fun f' hf' => by
      obtain ⟨f, hf, hhead, -⟩ := horigin f' hf'
      obtain ⟨hname, hparams, hret⟩ : f'.name = f.name ∧ f'.params = f.params ∧ f'.ret = f.ret := by
        simpa [Function.head] using hhead
      rw [hname, hparams, hret]
      exact h.signed f hf
    callable := fun name s hs => by
      obtain ⟨f, hf, rfl⟩ := h.callable name s hs
      exact List.mem_map.mp (hnames ▸ List.mem_map_of_mem hf)
    bodies := fun f' hf' hbody => by
      obtain ⟨f, -, -, hw⟩ := horigin f' hf'
      exact hw hbody
    globals := hglobals ▸ h.globals
    cells := hglobals ▸ h.cells }

/-- A function may be exchanged for another that looks the same from outside and is well formed. -/
theorem WellFormed.exchangeAt {index : Nat} {f f' : Function} (hf : m.functions[index]? = some f) (hhead : f'.head = f.head)
    (hw : f'.WellFormed I) : (m.modifyFunction index fun _ => f').WellFormed I := by
  refine h.exchange rfl (List.forall₂_iff_get.mpr ⟨by simp [modifyFunction], fun n hn hn' => ?_⟩)
  rw [List.get_eq_getElem, List.get_eq_getElem]
  simp only [modifyFunction, List.getElem_modify]
  split
  · rename_i heq
    subst heq
    obtain rfl : m.functions[index] = f := (List.getElem?_eq_some_iff.mp hf).2
    exact ⟨hhead, fun _ => hw⟩
  · exact ⟨rfl, h.bodies _ (List.getElem_mem hn)⟩

end Module

end Ember.IR
