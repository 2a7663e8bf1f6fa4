import Ember.Proofs.Machine.Sound
import Mathlib.Order.Basic

/-!
# Memories with cells in other places

Two memories may hold the same data in different cells. `Cells` says which cell of one stands for which cell of the other, and `Mirrored`
that cells that stand for each other hold the same. Frames that differ in their addresses only (`Frame.Relocated`) run to the same
results (`Runs.relocate`). The parts of the proof are stated for frames that may also differ in their code, so that they serve wherever
the code of a function is changed.
-/

namespace Ember

open IR

/-! ## Cells that stand for each other -/

/-- Which cell of one memory stands for which cell of another. -/
abbrev Cells := Nat → Nat → Prop

/-- One more pair of cells. -/
def Cells.add (P : Cells) (a b : Nat) : Cells :=
  fun x y => P x y ∨ x = a ∧ y = b

/-- The same datum, or addresses of cells that stand for each other. -/
inductive Datum.Alike (P : Cells) : Datum → Datum → Prop where
  | plain {d : Datum} : d.Plain → Alike P d d
  | pointer {a b : Nat} : P a b → Alike P (.pointer a) (.pointer b)

theorem Datum.Alike.mono {P P' : Cells} {d d' : Datum} (h : d.Alike P d') (hle : P ≤ P') : d.Alike P' d' := by
  cases h with
  | plain hd => exact .plain hd
  | pointer hab => exact .pointer (hle _ _ hab)

theorem Datum.Alike.eq_of_plain {P : Cells} {d d' : Datum} (h : d.Alike P d') (hd : d.Plain) : d' = d := by
  cases h with
  | plain _ => rfl
  | pointer _ => exact absurd rfl (hd _)

/-- Cells that stand for each other hold the same, and the globals stand for themselves. -/
structure Mirrored (m : Module) (P : Cells) (memory memory' : Memory) : Prop where
  globals : ∀ name cell, m.globalCell? name = some cell → P cell cell
  left : ∀ {a b b'}, P a b → P a b' → b = b'
  right : ∀ {a a' b}, P a b → P a' b → a = a'
  same : ∀ {a b}, P a b → ∃ d, memory[a]? = some d ∧ memory'[b]? = some d

namespace Mirrored

variable {m : Module} {P P' : Cells} {memory memory' memory₁ memory₁' : Memory} {a b : Nat} {d : Datum}

variable (h : Mirrored m P memory memory')
include h

theorem lt_left (hab : P a b) : a < memory.size := by
  obtain ⟨d, ha, -⟩ := h.same hab
  exact (Array.getElem?_eq_some_iff.mp ha).1

theorem lt_right (hab : P a b) : b < memory'.size := by
  obtain ⟨d, -, hb⟩ := h.same hab
  exact (Array.getElem?_eq_some_iff.mp hb).1

/-- Fewer pairs of cells. -/
theorem revert (h' : Mirrored m P' memory₁ memory₁') (hle : P ≤ P') : Mirrored m P memory₁ memory₁' :=
  ⟨h.globals, h.left, h.right, fun hab => h'.same (hle _ _ hab)⟩

/-- The same datum goes to two cells that stand for each other. -/
theorem store (hab : P a b) (d : Datum) : Mirrored m P (memory.setIfInBounds a d) (memory'.setIfInBounds b d) := by
  refine ⟨h.globals, h.left, h.right, fun {x y} hxy => ?_⟩
  by_cases hx : a = x
  · subst hx
    obtain rfl := h.left hab hxy
    exact ⟨d, Array.getElem?_setIfInBounds_self_of_lt (h.lt_left hab), Array.getElem?_setIfInBounds_self_of_lt (h.lt_right hab)⟩
  · have hy : b ≠ y := fun hby => hx (h.right hab (hby ▸ hxy))
    rw [Array.getElem?_setIfInBounds_ne hx, Array.getElem?_setIfInBounds_ne hy]
    exact h.same hxy

/-- A datum goes to a cell that stands for no other. -/
theorem store_left (ha : ∀ b, ¬P a b) (d : Datum) : Mirrored m P (memory.setIfInBounds a d) memory' := by
  refine ⟨h.globals, h.left, h.right, fun {x y} hxy => ?_⟩
  have hx : a ≠ x := by
    rintro rfl
    exact ha y hxy
  rw [Array.getElem?_setIfInBounds_ne hx]
  exact h.same hxy

/-- A datum goes to a cell for which no other stands. -/
theorem store_right (hb : ∀ a, ¬P a b) (d : Datum) : Mirrored m P memory (memory'.setIfInBounds b d) := by
  refine ⟨h.globals, h.left, h.right, fun {x y} hxy => ?_⟩
  have hy : b ≠ y := by
    rintro rfl
    exact hb x hxy
  rw [Array.getElem?_setIfInBounds_ne hy]
  exact h.same hxy

/-- One memory gets a new cell that stands for no other. -/
theorem push_left (d : Datum) : Mirrored m P (memory.push d) memory' := by
  refine ⟨h.globals, h.left, h.right, fun hab => ?_⟩
  obtain ⟨e, ha, hb⟩ := h.same hab
  exact ⟨e, getElem?_push_of_some ha d, hb⟩

theorem push_right (d : Datum) : Mirrored m P memory (memory'.push d) := by
  refine ⟨h.globals, h.left, h.right, fun hab => ?_⟩
  obtain ⟨e, ha, hb⟩ := h.same hab
  exact ⟨e, ha, getElem?_push_of_some hb d⟩

/-- Two more cells that hold the same stand for each other. -/
theorem add (ha : ∀ b, ¬P a b) (hb : ∀ a, ¬P a b) (hd : memory[a]? = some d) (hd' : memory'[b]? = some d) :
    Mirrored m (P.add a b) memory memory' where
  globals name cell hcell := .inl (h.globals name cell hcell)
  left := by
    rintro x y y' (hxy | ⟨hx, hy⟩) (hxy' | ⟨hx', hy'⟩)
    · exact h.left hxy hxy'
    · exact absurd (hx' ▸ hxy) (ha y)
    · exact absurd (hx ▸ hxy') (ha y')
    · exact hy.trans hy'.symm
  right := by
    rintro x x' y (hxy | ⟨hx, hy⟩) (hxy' | ⟨hx', hy'⟩)
    · exact h.right hxy hxy'
    · exact absurd (hy' ▸ hxy) (hb x)
    · exact absurd (hy ▸ hxy') (hb x')
    · exact hx.trans hx'.symm
  same := by
    rintro x y (hxy | ⟨rfl, rfl⟩)
    · exact h.same hxy
    · exact ⟨d, hd, hd'⟩

/-- From the first store on, two cells stand for each other. -/
theorem link (ha : ∀ b, ¬P a b) (hb : ∀ a, ¬P a b) (hlt : a < memory.size) (hlt' : b < memory'.size) (d : Datum) :
    Mirrored m (P.add a b) (memory.setIfInBounds a d) (memory'.setIfInBounds b d) :=
  ((h.store_left ha d).store_right hb d).add ha hb (Array.getElem?_setIfInBounds_self_of_lt hlt)
    (Array.getElem?_setIfInBounds_self_of_lt hlt')

/-- Both memories get a new cell. -/
theorem push (d : Datum) : Mirrored m (P.add memory.size memory'.size) (memory.push d) (memory'.push d) :=
  ((h.push_left d).push_right d).add (fun _ hab => Nat.lt_irrefl _ (h.lt_left hab)) (fun _ hab => Nat.lt_irrefl _ (h.lt_right hab))
    Array.getElem?_push_size Array.getElem?_push_size

end Mirrored

theorem Cells.le_add (P : Cells) (a b : Nat) : P ≤ P.add a b :=
  fun _ _ => .inl

/-! ## Ways of a frame -/

/-- A frame comes to be another of the same function, without returning. -/
inductive Path (m : Module) (depth : Nat) : Frame → Memory → Frame → Memory → Prop where
  | refl {f : Frame} {memory : Memory} : Path m depth f memory f memory
  | move {f f' f'' : Frame} {memory memory' memory'' : Memory} :
      f.Moves m memory f' memory' → Path m depth f' memory' f'' memory'' → Path m depth f memory f'' memory''
  | call {f f'' g : Frame} {memory memory' memory'' : Memory} {d : Datum} {dest : Option Register} {callee : String}
      {args : List Value} {ret : Ty} {rest : List Instruction} {values : List Datum} :
      f.pending = .call dest callee args ret :: rest → List.Forall₂ (fun v d => f.value? m v = some d) args values →
      m.Enters callee values dest g → depth + 1 < depthLimit → Runs m (depth + 1) g memory d memory' → f.Takes dest →
      Path m depth ((f.behind rest).put dest d) memory' f'' memory'' → Path m depth f memory f'' memory''

section

variable {m : Module} {depth : Nat} {f f' f'' : Frame} {memory memory' memory'' : Memory} {d : Datum}

theorem Path.trans (h : Path m depth f memory f' memory') (h' : Path m depth f' memory' f'' memory'') :
    Path m depth f memory f'' memory'' := by
  induction h with
  | refl => exact h'
  | move hmove _ ih => exact .move hmove (ih h')
  | call hp hargs hg hdepth hruns htakes _ ih => exact .call hp hargs hg hdepth hruns htakes (ih h')

theorem Path.runs (h : Path m depth f memory f' memory') (h' : Runs m depth f' memory' d memory'') : Runs m depth f memory d memory'' := by
  induction h with
  | refl => exact h'
  | move hmove _ ih => exact .move hmove (ih h')
  | call hp hargs hg hdepth hruns htakes _ ih => exact .call hp hargs hg hdepth hruns htakes (ih h')

theorem Frame.Moves.path (h : f.Moves m memory f' memory') : Path m depth f memory f' memory' :=
  .move h .refl

/-- With fewer frames below it, a frame runs all the same. -/
theorem Runs.shallower (h : Runs m depth f memory d memory') : ∀ {depth'}, depth' ≤ depth → Runs m depth' f memory d memory' := by
  induction h with
  | ret hd => exact fun _ => .ret hd
  | move hmove _ ih => exact fun hle => .move hmove (ih hle)
  | call hp hargs hg hdepth _ htakes _ ihcallee ihrest =>
    exact fun hle => .call hp hargs hg (by omega) (ihcallee (by omega)) htakes (ihrest hle)

theorem Frame.Moves.size_le (h : f.Moves m memory f' memory') : memory.size ≤ memory'.size := by
  cases h with
  | compute _ hd _ => cases hd <;> simp
  | goto _ _ _ _ => exact Nat.le_refl _

/-- Memory never shrinks. -/
theorem Runs.size_le (h : Runs m depth f memory d memory') : memory.size ≤ memory'.size := by
  induction h with
  | ret _ => exact Nat.le_refl _
  | move hmove _ ih => exact Nat.le_trans hmove.size_le ih
  | call _ _ _ _ _ _ _ ihcallee ihrest => exact Nat.le_trans ihcallee ihrest

theorem Path.size_le (h : Path m depth f memory f' memory') : memory.size ≤ memory'.size := by
  induction h with
  | refl => exact Nat.le_refl _
  | move hmove _ ih => exact Nat.le_trans hmove.size_le ih
  | call _ _ _ _ hruns _ _ ih => exact Nat.le_trans hruns.size_le ih

end

/-! ## Instructions with other names -/

/-- An instruction with other operands, another destination and other names of blocks. -/
def IR.Instruction.rename (σ : Value → Value) (ρ : Register → Register) (τ : BlockId → BlockId) (i : Instruction) : Instruction :=
  ((i.mapOperands σ).mapDest ρ).mapIncoming (·.map fun (value, source) => (value, τ source))

@[simp] theorem IR.Instruction.rename_id (i : Instruction) : i.rename id id id = i := by
  cases i <;> simp [rename, mapOperands, mapDest, mapIncoming]

section

variable {m m' : Module} {I : Interface} {P : Cells} {f f' : Frame} {memory memory' memory₁ : Memory} {d : Datum}
  {σ : Value → Value} {ρ : Register → Register} {τ : BlockId → BlockId}

/-- An edge of a phi is found by its other name. -/
theorem find?_renamed {incoming : List (Value × BlockId)} {p : BlockId} {edge : Value × BlockId}
    (h : (incoming.find? fun (_, block) => block = p) = some edge) (hτ : ∀ e ∈ incoming, τ e.2 = τ p → e.2 = p) :
    ((incoming.map fun (value, source) => (σ value, τ source)).find? fun (_, block) => block = τ p) = some (σ edge.1, τ edge.2) := by
  induction incoming with
  | nil => cases h
  | cons e incoming ih =>
    rw [List.map_cons]
    by_cases he : e.2 = p
    · rw [List.find?_cons_of_pos (by simpa using he)] at h
      rw [List.find?_cons_of_pos (by simp [he])]
      cases h
      rfl
    · rw [List.find?_cons_of_neg (by simpa using he)] at h
      rw [List.find?_cons_of_neg (by simpa using fun hτe => he (hτ e List.mem_cons_self hτe))]
      exact ih h fun e' he' => hτ e' (List.mem_cons_of_mem _ he')

/-- An instruction that is renamed computes the same in a frame whose operands are alike, and leaves memory mirrored. -/
theorem Frame.Computes.rename (hm : m.WellFormed I) (hf : f.Sound I m memory) {i : Instruction} {rest : List Instruction}
    (hp : f.pending = i :: rest) (hi : i.isAlloca = false) (h : f.Computes m memory i d memory₁)
    (hview : ∀ v, f.Uses i v → ∀ e, f.value? m v = some e → ∃ e', f'.value? m' (σ v) = some e' ∧ e.Alike P e')
    (hprev : ∀ dest type incoming p, i = .phi dest type incoming → f.previous = some p →
      f'.previous = some (τ p) ∧ ∀ e ∈ incoming, τ e.2 = τ p → e.2 = p) (hmem : Mirrored m P memory memory') :
    ∃ memory₁', f'.Computes m' memory' (i.rename σ ρ τ) d memory₁' ∧ Mirrored m P memory₁ memory₁' := by
  have hplain := hf.plain_result hm hp hi h
  -- a value that is no address is the same on both sides
  have hsame : ∀ v, f.Uses i v → ∀ e, e.Plain → f.value? m v = some e → f'.value? m' (σ v) = some e := by
    intro v hv e he hve
    obtain ⟨e', he', halike⟩ := hview v hv e hve
    rwa [halike.eq_of_plain he] at he'
  cases h with
  | @assign _ value _ hd => exact ⟨memory', .assign (hsame value (by simp [Uses, Instruction.operands]) d hplain hd), hmem⟩
  | @binary _ _ _ left right _ _ _ ha hb hc | @compare _ _ _ left right _ _ _ ha hb hc =>
    have ha' := hsame left (by simp [Uses, Instruction.operands]) _ (Datum.plain_constant _) ha
    have hb' := hsame right (by simp [Uses, Instruction.operands]) _ (Datum.plain_constant _) hb
    first | exact ⟨memory', .binary ha' hb' hc, hmem⟩ | exact ⟨memory', .compare ha' hb' hc, hmem⟩
  | @unary _ _ _ value _ _ ha hc | @cast _ _ value _ _ _ _ ha hc =>
    have ha' := hsame value (by simp [Uses, Instruction.operands]) _ (Datum.plain_constant _) ha
    first | exact ⟨memory', .unary ha' hc, hmem⟩ | exact ⟨memory', .cast ha' hc, hmem⟩
  | alloca => cases hi
  | @load _ pointer _ cell _ hcell hd =>
    obtain ⟨e', he', halike⟩ := hview pointer (by simp [Uses, Instruction.operands]) _ hcell
    cases halike with
    | plain hplain => exact absurd rfl (hplain cell)
    | @pointer _ b hab =>
      obtain ⟨d', ha, hb⟩ := hmem.same hab
      cases hd.symm.trans ha
      exact ⟨memory', .load he' hb, hmem⟩
  | @store pointer value _ cell e hcell _ hd =>
    obtain ⟨e', he', halike⟩ := hview pointer (by simp [Uses, Instruction.operands]) _ hcell
    have hstored := hsame value (by simp [Uses, Instruction.operands]) e (hf.plain_stored hp hd) hd
    cases halike with
    | plain hplain => exact absurd rfl (hplain cell)
    | @pointer _ b hab => exact ⟨_, .store he' (hmem.lt_right hab) hstored, hmem.store hab e⟩
  | @phi dest type incoming p edge _ hp' hfind hd =>
    obtain ⟨hprevious, hτ⟩ := hprev dest type incoming p rfl hp'
    refine ⟨memory', ?_, hmem⟩
    have := hsame edge.1 ⟨p, edge, hp', hfind, rfl⟩ d hplain hd
    simp only [Instruction.rename, Instruction.mapOperands, Instruction.mapDest, Instruction.mapIncoming, List.map_map]
    exact .phi hprevious (find?_renamed hfind hτ) this

/-- A module with the same globals has them in the same cells. -/
theorem globalCell?_congr (h : m'.globals = m.globals) (name : String) : m'.globalCell? name = m.globalCell? name := by
  rw [Module.globalCell?, Module.globalCell?, h]

end

/-! ## Frames with other addresses -/

namespace Frame

/-- Arguments and live registers are alike. -/
structure Likens (P : Cells) (live : Register → Prop) (f f' : Frame) : Prop where
  args : List.Forall₂ (Datum.Alike P) f.args f'.args
  size : f.registers.size ≤ f'.registers.size
  registers : ∀ r, live r → ∀ d, f.registers[r]? = some d → ∃ d', f'.registers[r]? = some d' ∧ d.Alike P d'

/-- The same code, at the same place, with data that are alike. -/
structure Relocated (P : Cells) (f f' : Frame) : Prop where
  function : f'.function = f.function
  block : f'.block = f.block
  previous : f'.previous = f.previous
  pending : f'.pending = f.pending
  likens : f.Likens P (fun _ => True) f'

variable {m m' : Module} {I : Interface} {P P' : Cells} {live : Register → Prop} {f f' f₁ : Frame} {memory memory' memory₁ : Memory}
  {d d' : Datum}

section

variable (h : f.Likens P live f')
include h

theorem Likens.mono (hle : P ≤ P') : f.Likens P' live f' where
  args := h.args.imp fun _ _ hd => hd.mono hle
  size := h.size
  registers r hr d hd := by
    obtain ⟨d', hd', halike⟩ := h.registers r hr d hd
    exact ⟨d', hd', halike.mono hle⟩

theorem Likens.behind (rest rest' : List Instruction) : (f.behind rest).Likens P live (f'.behind rest') :=
  ⟨h.args, h.size, h.registers⟩

theorem Likens.goto (id id' : BlockId) (B B' : Block) : (f.goto id B).Likens P live (f'.goto id' B') :=
  ⟨h.args, h.size, h.registers⟩

theorem Likens.takes {dest : Option Register} (ht : f.Takes dest) : f'.Takes dest :=
  fun r hr => Nat.lt_of_lt_of_le (ht r hr) h.size

/-- Results that are alike leave registers alike. -/
theorem Likens.put {dest : Option Register} (hd : d.Alike P d') : (f.put dest d).Likens P live (f'.put dest d') := by
  cases dest with
  | none => exact h
  | some r =>
    refine ⟨h.args, by simpa [Frame.put] using h.size, fun q hq e he => ?_⟩
    by_cases hqr : r = q
    · subst hqr
      have hlt : r < f.registers.size := by
        by_contra hle
        simp [Frame.put, Array.setIfInBounds, hle] at he
      simp only [Frame.put, Array.getElem?_setIfInBounds_self_of_lt hlt] at he
      cases he
      exact ⟨d', Array.getElem?_setIfInBounds_self_of_lt (Nat.lt_of_lt_of_le hlt h.size), hd⟩
    · simp only [Frame.put, Array.getElem?_setIfInBounds_ne hqr] at he ⊢
      exact h.registers q hq e he

variable (hmem : Mirrored m P memory memory') (hglobals : m'.globals = m.globals)
include hmem hglobals

/-- Operands that are no dead registers are alike. -/
theorem Likens.value {v : Value} (hv : ∀ r, v = .register r → live r) (hd : f.value? m v = some d) :
    ∃ d', f'.value? m' v = some d' ∧ d.Alike P d' := by
  cases v with
  | register r => exact h.registers r (hv r rfl) d hd
  | constant c =>
    cases hd
    exact ⟨_, rfl, .plain (Datum.plain_constant c)⟩
  | parameter i =>
    obtain ⟨hi, rfl⟩ := List.getElem?_eq_some_iff.mp hd
    have hi' : i < f'.args.length := h.args.length_eq ▸ hi
    exact ⟨f'.args[i], List.getElem?_eq_getElem hi', h.args.get hi hi'⟩
  | global name =>
    obtain ⟨cell, hcell, rfl⟩ := Option.map_eq_some_iff.mp hd
    exact ⟨.pointer cell, by simp [value?, globalCell?_congr hglobals, hcell], .pointer (hmem.globals name cell hcell)⟩
  | function name => cases hd
  | undef t | unit =>
    cases hd
    exact ⟨_, rfl, .plain fun _ h => Datum.noConfusion h⟩

omit hmem hglobals in
omit h in
/-- Where every operand stands for one that is alike, so do several of them. -/
theorem exists_alike_values {o : Value → Value} {args : List Value} {values : List Datum} (hvalues : f.Supplies m args values)
    (hop : ∀ v ∈ args, ∀ d, f.value? m v = some d → ∃ d', f'.value? m' (o v) = some d' ∧ d.Alike P d') :
    ∃ values', f'.Supplies m' (args.map o) values' ∧ List.Forall₂ (Datum.Alike P) values values' := by
  induction hvalues with
  | nil => exact ⟨[], .nil, .nil⟩
  | @cons v d args values hd _ ih =>
    obtain ⟨d', hd', halike⟩ := hop v List.mem_cons_self d hd
    obtain ⟨values', hvalues', halikes⟩ := ih fun v hv => hop v (List.mem_cons_of_mem _ hv)
    exact ⟨d' :: values', .cons hd' hvalues', .cons halike halikes⟩

/-- The arguments of a call are alike. -/
theorem Likens.values {args : List Value} (hargs : ∀ v ∈ args, ∀ r, v = .register r → live r) {values : List Datum}
    (hvalues : f.Supplies m args values) : ∃ values', f'.Supplies m' args values' ∧ List.Forall₂ (Datum.Alike P) values values' := by
  simpa using exists_alike_values (o := id) hvalues fun v hv d hd => h.value hmem hglobals (hargs v hv) hd

/-- The end of a block leads to the same block if its operands are alike. -/
theorem Likens.leads {t : Option Terminator} (ht : ∀ u ∈ t, ∀ r, .register r ∈ u.operands → live r) {id : BlockId} (hleads : f.Leads m t id) :
    f'.Leads m' t id := by
  cases t with
  | none => exact hleads
  | some u =>
    cases u with
    | branch cond yes no =>
      obtain ⟨c, n, hc, hn, rfl⟩ := hleads
      obtain ⟨d', hd', halike⟩ := h.value hmem hglobals (v := cond) (fun r hr => ht _ rfl r (by simp [Terminator.operands, hr])) hc
      rw [halike.eq_of_plain (Datum.plain_constant _)] at hd'
      exact ⟨c, n, hd', hn, rfl⟩
    | ret value => cases value <;> exact hleads
    | _ => exact hleads

/-- The end of a block returns the same if its operands are alike. -/
theorem Likens.yields {t : Option Terminator} (ht : ∀ u ∈ t, ∀ r, .register r ∈ u.operands → live r) (hplain : d.Plain)
    (hyields : f.Yields m t d) : f'.Yields m' t d := by
  cases t with
  | none => exact hyields
  | some u =>
    cases u with
    | ret value =>
      cases value with
      | none => exact hyields
      | some v =>
        obtain ⟨d', hd', halike⟩ := h.value hmem hglobals (v := v) (fun r hr => ht _ rfl r (by simp [Terminator.operands, hr])) hyields
        rwa [halike.eq_of_plain hplain] at hd'
    | _ => exact hyields

omit hmem hglobals in
omit h in
/-- Frames of functions that start with arguments that are alike. -/
theorem likens_frame {F F' : Function} (hsize : F.registers.size ≤ F'.registers.size) {args args' : List Datum}
    (hargs : List.Forall₂ (Datum.Alike P) args args') (dest dest' : Option Register) (B B' : Block) :
    (F.frame args dest B).Likens P live (F'.frame args' dest' B') := by
  refine ⟨hargs, by simpa [Function.frame] using hsize, fun r _ d hd => ?_⟩
  simp only [Function.frame, Array.getElem?_replicate] at hd ⊢
  split at hd
  · rename_i hr
    cases hd
    exact ⟨.undef, if_pos (Nat.lt_of_lt_of_le hr hsize), .plain fun _ => Datum.noConfusion⟩
  · cases hd

/-- An instruction computes data that are alike in a frame with data that are alike. A slot gets new cells on both sides. -/
theorem Likens.computes (hm : m.WellFormed I) (hf : f.Sound I m memory) {i : Instruction} {rest : List Instruction}
    (hp : f.pending = i :: rest) (hlive : ∀ r, f.Uses i (.register r) → live r) {τ : BlockId → BlockId}
    (hprev : ∀ dest type incoming p, i = .phi dest type incoming → f.previous = some p →
      f'.previous = some (τ p) ∧ ∀ e ∈ incoming, τ e.2 = τ p → e.2 = p) (hd : f.Computes m memory i d memory₁) :
    ∃ P₁ d' memory₁', P ≤ P₁ ∧ f'.Computes m' memory' (i.rename id id τ) d' memory₁' ∧ d.Alike P₁ d' ∧ Mirrored m P₁ memory₁ memory₁' ∧
      ∀ a b, P₁ a b → P a b ∨ memory.size ≤ a ∧ memory'.size ≤ b := by
  cases hi : i.isAlloca with
  | true =>
    cases hd with
    | alloca =>
      refine ⟨P.add memory.size memory'.size, _, _, P.le_add _ _, .alloca, .pointer (.inr ⟨rfl, rfl⟩), hmem.push .undef, ?_⟩
      rintro a b (hab | ⟨rfl, rfl⟩)
      · exact .inl hab
      · exact .inr ⟨Nat.le_refl _, Nat.le_refl _⟩
    | _ => cases hi
  | false =>
    obtain ⟨memory₁', hd', hmem'⟩ : ∃ memory₁', f'.Computes m' memory' (i.rename id id τ) d memory₁' ∧ Mirrored m P memory₁ memory₁' :=
      hd.rename hm hf hp hi (fun v hv e he => h.value hmem hglobals (fun r hr => hlive r (hr ▸ hv)) he) hprev hmem
    exact ⟨P, d, memory₁', le_refl P, hd', .plain (hf.plain_result hm hp hi hd), hmem', fun _ _ => .inl⟩

end

section Relocated

variable (hm : m.WellFormed I) (hglobals : m'.globals = m.globals) (hf : f.Sound I m memory) (h : f.Relocated P f')
  (hmem : Mirrored m P memory memory')
include hglobals h hmem

theorem Relocated.returns (hd : f.Returns m d) (hplain : d.Plain) : f'.Returns m' d := by
  obtain ⟨hp, A, hA, hyields⟩ := hd
  refine ⟨h.pending.trans hp, A, ?_, h.likens.yields hmem hglobals (fun _ _ _ _ => trivial) hplain hyields⟩
  rw [h.function, h.block, hA]

include hm hf

theorem Relocated.moves (hmove : f.Moves m memory f₁ memory₁) :
    ∃ P₁ f₁' memory₁', P ≤ P₁ ∧ f'.Moves m' memory' f₁' memory₁' ∧ f₁.Relocated P₁ f₁' ∧ Mirrored m P₁ memory₁ memory₁' := by
  cases hmove with
  | @compute i rest d _ hp hd htakes =>
    obtain ⟨P₁, d', memory₁', hle, hd', halike, hmem', -⟩ := h.likens.computes hmem hglobals hm hf hp (fun _ _ => trivial) (τ := id)
      (fun _ _ _ p _ hprev => ⟨h.previous.trans hprev, fun _ _ => id⟩) hd
    rw [Instruction.rename_id] at hd'
    refine ⟨P₁, _, memory₁', hle, .compute (h.pending.trans hp) hd' (h.likens.takes htakes), ?_, hmem'⟩
    refine ⟨?_, ?_, ?_, ?_, ((h.likens.mono hle).behind rest rest).put halike⟩ <;>
      simp [Frame.behind, h.function, h.block, h.previous]
  | @goto id A B hp hA hleads hB =>
    refine ⟨P, f'.goto id B, memory', le_refl P, ?_, ?_, hmem⟩
    · exact .goto (h.pending.trans hp) (by rw [h.function, h.block, hA]) (h.likens.leads hmem hglobals (fun _ _ _ _ => trivial) hleads)
        (by rw [h.function, hB])
    · exact ⟨h.function, rfl, congrArg some h.block, rfl, h.likens.goto id id B B⟩

omit hm hf in
theorem Relocated.call {dest : Option Register} {callee : String} {args : List Value} {ret : Ty} {rest : List Instruction}
    {values : List Datum} (hp : f.pending = .call dest callee args ret :: rest) (hargs : f.Supplies m args values) :
    ∃ values', f'.pending = .call dest callee args ret :: rest ∧ f'.Supplies m' args values' ∧
      List.Forall₂ (Datum.Alike P) values values' ∧
      ∀ d : Datum, d.Plain → ((f.behind rest).put dest d).Relocated P ((f'.behind rest).put dest d) := by
  obtain ⟨values', hvalues', halike⟩ := h.likens.values hmem hglobals (fun _ _ _ _ => trivial) hargs
  refine ⟨values', h.pending.trans hp, hvalues', halike, fun d hd => ?_⟩
  refine ⟨?_, ?_, ?_, ?_, (h.likens.behind rest rest).put (.plain hd)⟩ <;>
    simp [Frame.behind, h.function, h.block, h.previous]

end Relocated

theorem relocated_frame {F : Function} {args args' : List Datum} (hargs : List.Forall₂ (Datum.Alike P) args args')
    (dest : Option Register) (B : Block) : (F.frame args dest B).Relocated P (F.frame args' dest B) :=
  ⟨rfl, rfl, rfl, rfl, likens_frame (Nat.le_refl _) hargs dest dest B B⟩

end Frame

/-! ## Runs with other addresses -/

/-- Frames of one module follow those of another at every step, with cells that stand for each other. -/
structure Transports (I : Interface) (m m' : Module) (Rel : Cells → Frame → Frame → Prop) : Prop where
  ret : ∀ {P f f' memory memory' d}, f.Sound I m memory → Rel P f f' → Mirrored m P memory memory' → f.Returns m d → d.Plain →
    f'.Returns m' d
  move : ∀ {P f f' f₁ memory memory' memory₁} (depth : Nat), f.Sound I m memory → Rel P f f' → Mirrored m P memory memory' →
    f.Moves m memory f₁ memory₁ → ∃ P₁ f₁' memory₁', P ≤ P₁ ∧ Path m' depth f' memory' f₁' memory₁' ∧ Rel P₁ f₁ f₁' ∧
      Mirrored m P₁ memory₁ memory₁'
  call : ∀ {P f f' memory memory' dest callee args ret rest values}, f.Sound I m memory → Rel P f f' → Mirrored m P memory memory' →
    f.pending = .call dest callee args ret :: rest → List.Forall₂ (fun v d => f.value? m v = some d) args values → f.Takes dest →
    ∃ rest' values', f'.pending = .call dest callee args ret :: rest' ∧ List.Forall₂ (fun v d => f'.value? m' v = some d) args values' ∧
      List.Forall₂ (Datum.Alike P) values values' ∧ f'.Takes dest ∧
      ∀ d : Datum, d.Plain → Rel P ((f.behind rest).put dest d) ((f'.behind rest').put dest d)

/-- Frames of one module follow those of another from the start on. -/
structure Transfer (I : Interface) (m m' : Module) (Rel : Cells → Frame → Frame → Prop) : Prop extends Transports I m m' Rel where
  enter : ∀ {P name values values' dest g}, m.Enters name values dest g → List.Forall₂ (Datum.Alike P) values values' →
    ∃ g', m'.Enters name values' dest g' ∧ Rel P g g'

section

variable {m m' : Module} {I : Interface} {Rel : Cells → Frame → Frame → Prop} {P : Cells} {f f' : Frame}
  {memory memory' memory₁ : Memory} {d : Datum}

/-- A frame that follows another runs to the same result. -/
theorem Transfer.runs (hm : m.WellFormed I) (S : Transfer I m m' Rel) {depth : Nat} (h : Runs m depth f memory d memory₁)
    (hf : f.Sound I m memory) (hrel : Rel P f f') (hmem : Mirrored m P memory memory') :
    ∃ memory₁', Runs m' depth f' memory' d memory₁' ∧ Mirrored m P memory₁ memory₁' := by
  revert P f' memory'
  apply h.induct_sound hm ?ret ?move ?call hf
  case ret =>
    intro depth f memory d hf hd hplain P f' memory' hrel hmem
    exact ⟨memory', .ret (S.ret hf hrel hmem hd hplain), hmem⟩
  case move =>
    intro depth f f₁ memory memory₁ memory₂ d hf hmove ih P f' memory' hrel hmem
    obtain ⟨P₁, f₁', memory₁', hle, hpath, hrel₁, hmem₁⟩ := S.move depth hf hrel hmem hmove
    obtain ⟨memory₂', hruns, hmem₂⟩ := ih hrel₁ hmem₁
    exact ⟨memory₂', hpath.runs hruns, hmem.revert hmem₂ hle⟩
  case call =>
    intro depth f g memory memory₁ memory₂ d result dest callee args ret rest values hf hp hargs hg hdepth _ _ hd htakes ihcallee ihrest
      P f' memory' hrel hmem
    obtain ⟨rest', values', hp', hargs', halike, htakes', hput⟩ := S.call hf hrel hmem hp hargs htakes
    obtain ⟨g', hg', hgrel⟩ := S.enter hg halike
    obtain ⟨memory₁', hcallee, hmem₁⟩ := ihcallee hgrel hmem
    obtain ⟨memory₂', hrest, hmem₂⟩ := ihrest (hput d hd.plain) hmem₁
    exact ⟨memory₂', .call hp' hargs' hg' hdepth hcallee htakes' hrest, hmem₂⟩

/-- Frames that differ in their addresses only follow each other, in modules with the same globals. -/
theorem transports_relocated (hm : m.WellFormed I) (hglobals : m'.globals = m.globals) : Transports I m m' Frame.Relocated where
  ret _ hrel hmem hd hplain := hrel.returns hglobals hmem hd hplain
  move depth hf hrel hmem hmove := by
    obtain ⟨P₁, f₁', memory₁', hle, hmove', hrel₁, hmem₁⟩ := hrel.moves hm hglobals hf hmem hmove
    exact ⟨P₁, f₁', memory₁', hle, hmove'.path, hrel₁, hmem₁⟩
  call _ hrel hmem hp hargs htakes := by
    obtain ⟨values', hp', hargs', halike, hput⟩ := hrel.call hglobals hmem hp hargs
    exact ⟨_, values', hp', hargs', halike, hrel.likens.takes htakes, hput⟩

theorem transfer_relocated (hm : m.WellFormed I) : Transfer I m m Frame.Relocated where
  toTransports := transports_relocated hm rfl
  enter := by
    rintro P name values values' dest g ⟨F, B, hF, hlength, hB, rfl⟩ halike
    exact ⟨_, ⟨F, B, hF, halike.length_eq.symm.trans hlength, hB, rfl⟩, Frame.relocated_frame halike dest B⟩

end

end Ember
