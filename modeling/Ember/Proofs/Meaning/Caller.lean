import Ember.Proofs.IR.Dominance
import Ember.Proofs.Machine.Refinement

/-!
# The caller of an inlined function

A function `f` runs next to `f'`, in which one of its calls has been replaced by a copy of the callee. Up to the call and behind it, `f'`
does what `f` does (`Splice.Follows`): the block of the call is cut in two, and the slots of the callee are allocated at the start, behind
those of `f` itself. The cells of those slots stand for none of the cells of the original run, until it comes to the call.
-/

namespace Ember

open IR

/-! ## Allocating slots -/

/-- A frame has allocated cells for some registers, and done nothing else. -/
structure Frame.Allocates (g : Frame) (memory : Memory) (dests : List Register) (g' : Frame) (memory' : Memory) : Prop where
  same : g' = { g with pending := g'.pending, registers := g'.registers }
  size : g'.registers.size = g.registers.size
  kept : ∀ r, r ∉ dests → g'.registers[r]? = g.registers[r]?
  cells : ∀ r ∈ dests, ∃ c, g'.registers[r]? = some (.pointer c) ∧ memory.size ≤ c ∧ c < memory'.size
  apart : ∀ r ∈ dests, ∀ q ∈ dests, ∀ c, g'.registers[r]? = some (.pointer c) → g'.registers[q]? = some (.pointer c) → r = q
  mirrored : ∀ {m P memory₀}, Mirrored m P memory₀ memory → Mirrored m P memory₀ memory'

/-- Running through allocas. -/
theorem path_allocas {m : Module} (depth : Nat) {l rest : List Instruction} (hl : ∀ i ∈ l, i.isAlloca = true)
    (hnodup : (l.filterMap (·.dest?)).Nodup) {g : Frame} {memory : Memory} (hp : g.pending = l ++ rest)
    (hsize : ∀ r ∈ l.filterMap (·.dest?), r < g.registers.size) :
    ∃ g' memory', Path m depth g memory g' memory' ∧ g'.pending = rest ∧ g.Allocates memory (l.filterMap (·.dest?)) g' memory' := by
  induction l generalizing g memory with
  | nil => exact ⟨g, memory, .refl, hp, rfl, rfl, fun _ _ => rfl, nofun, nofun, id⟩
  | cons i l ih =>
    cases i with
    | alloca dest type =>
      have hdests : (Instruction.alloca dest type :: l).filterMap (·.dest?) = dest :: l.filterMap (·.dest?) := rfl
      rw [hdests] at hnodup hsize ⊢
      obtain ⟨hdest, hnodup⟩ := List.nodup_cons.mp hnodup
      have hlt := hsize dest List.mem_cons_self
      let g₁ := (g.behind (l ++ rest)).put (some dest) (.pointer memory.size)
      have hmove : g.Moves m memory g₁ (memory.push .undef) := by
        refine .compute hp .alloca fun r hr => ?_
        cases hr
        exact hlt
      have hsize₁ : ∀ r ∈ l.filterMap (·.dest?), r < g₁.registers.size := fun r hr => by
        simpa [g₁, Frame.put, Frame.behind] using hsize r (List.mem_cons_of_mem _ hr)
      obtain ⟨g', memory', hpath, hp', h⟩ : ∃ g' memory', Path m depth g₁ (memory.push .undef) g' memory' ∧ g'.pending = rest ∧
          g₁.Allocates (memory.push .undef) (l.filterMap (·.dest?)) g' memory' :=
        ih (fun i hi => hl i (List.mem_cons_of_mem _ hi)) hnodup rfl hsize₁
      have hfirst : g'.registers[dest]? = some (.pointer memory.size) := by
        rw [h.kept dest hdest]
        exact Array.getElem?_setIfInBounds_self_of_lt hlt
      have hle : memory.size + 1 ≤ memory'.size := by simpa using hpath.size_le
      have hcells : ∀ r ∈ l.filterMap (·.dest?), ∃ c, g'.registers[r]? = some (.pointer c) ∧ memory.size + 1 ≤ c ∧ c < memory'.size := by
        intro r hr
        simpa using h.cells r hr
      refine ⟨g', memory', .move hmove hpath, hp', ?_, ?_, fun r hr => ?_, fun r hr => ?_, fun r hr q hq c hrc hqc => ?_, fun hm => ?_⟩
      · rw [h.same]
        rfl
      · rw [h.size]
        simp [g₁, Frame.put, Frame.behind]
      · have hne : dest ≠ r := fun heq => hr (heq ▸ List.mem_cons_self)
        rw [h.kept r fun hin => hr (List.mem_cons_of_mem _ hin)]
        exact Array.getElem?_setIfInBounds_ne hne
      · rcases List.mem_cons.mp hr with rfl | hr
        · exact ⟨memory.size, hfirst, Nat.le_refl _, hle⟩
        · obtain ⟨c, hc, hlo, hhi⟩ := hcells r hr
          exact ⟨c, hc, by omega, hhi⟩
      · -- the first cell lies below the others
        have hbelow : ∀ q ∈ l.filterMap (·.dest?), g'.registers[q]? ≠ some (.pointer memory.size) := fun q hq hqc => by
          obtain ⟨c, hc, hlo, -⟩ := hcells q hq
          cases hc.symm.trans hqc
          omega
        rcases List.mem_cons.mp hr with rfl | hrl
        · cases hfirst.symm.trans hrc
          rcases List.mem_cons.mp hq with rfl | hql
          · rfl
          · exact absurd hqc (hbelow q hql)
        · rcases List.mem_cons.mp hq with rfl | hql
          · cases hfirst.symm.trans hqc
            exact absurd hrc (hbelow r hrl)
          · exact h.apart r hrl q hql c hrc hqc
      · exact h.mirrored (hm.push_right .undef)
    | _ => cases hl _ List.mem_cons_self

/-! ## The caller next to its original -/

/-- The slots of an inlined callee are there: their cells differ, and stand for none. -/
structure Hoists (callee : Function) (offset : Nat) (P : Cells) (g : Frame) (memory : Memory) : Prop where
  slot : ∀ r, callee.IsSlot r → ∃ c, g.registers[offset + r]? = some (.pointer c) ∧ c < memory.size ∧ ∀ a, ¬P a c
  apart : ∀ r q c, callee.IsSlot r → callee.IsSlot q → g.registers[offset + r]? = some (.pointer c) →
    g.registers[offset + q]? = some (.pointer c) → r = q

theorem Hoists.mono {callee : Function} {offset : Nat} {P P₁ : Cells} {g g₁ : Frame} {memory memory₁ : Memory}
    (h : Hoists callee offset P g memory) (hsize : memory.size ≤ memory₁.size) (hP : ∀ a c, P₁ a c → P a c ∨ memory.size ≤ c)
    (hregisters : ∀ r, callee.IsSlot r → g₁.registers[offset + r]? = g.registers[offset + r]?) : Hoists callee offset P₁ g₁ memory₁ where
  slot r hr := by
    obtain ⟨c, hc, hlt, hno⟩ := h.slot r hr
    refine ⟨c, (hregisters r hr).trans hc, Nat.lt_of_lt_of_le hlt hsize, fun a ha => ?_⟩
    rcases hP a c ha with ha | hle
    · exact hno a ha
    · omega
  apart r q c hr hq hrc hqc := h.apart r q c hr hq ((hregisters r hr).symm.trans hrc) ((hregisters q hq).symm.trans hqc)

namespace IR.Splice

variable (s : Splice) (f callee f' : Function) {x : BlockId}

/-- The block from which control comes after inlining: what came from the block of the call comes from the block behind it. -/
def moved (p : BlockId) : BlockId :=
  if p = s.block then f.blocks.length else p

/-- What is left to do of a block up to the call, before and after inlining. -/
def Left (x : BlockId) (l l' : List Instruction) : Prop :=
  if x = s.block then
    ∃ rest, l = rest ++ .call s.dest callee.name s.args s.ret :: s.after ∧ l' = rest.map (·.mapIncoming (s.edges f x))
  else l' = l.map (·.mapIncoming (s.edges f x))

/-- The frames are at the start, the slots of the callee not allocated yet. -/
structure Starts (g g' : Frame) : Prop where
  entry : g.block = f.entry
  block : g'.block = g.block
  previous : g'.previous = g.previous.map (s.moved f)
  pending : ∃ l', s.Left f callee g.block g.pending l' ∧
    g'.pending = l'.takeWhile (·.isAlloca) ++ s.slots f callee ++ l'.dropWhile (·.isAlloca)

/-- The frames are in the same block, before the call if it is in it. -/
structure Aligned (g g' : Frame) : Prop where
  block : g'.block = g.block
  previous : g'.previous = g.previous.map (s.moved f)
  pending : s.Left f callee g.block g.pending g'.pending

/-- The frames are behind the call. -/
structure Behind (g g' : Frame) : Prop where
  block : g.block = s.block
  block' : g'.block = f.blocks.length
  pending : g'.pending = g.pending
  after : ∃ done, s.after = done ++ g.pending

/-- The data of the caller, before and after inlining. -/
structure Carries (P : Cells) (g g' : Frame) : Prop where
  function : g.function = f
  function' : g'.function = f'
  likens : g.Likens P (fun _ => True) g'
  size : g.registers.size = f.registers.size
  size' : g'.registers.size = f.registers.size + callee.registers.size

/-- A frame of the caller follows its original. -/
structure Follows (P : Cells) (g g' : Frame) (memory' : Memory) : Prop where
  carries : Carries f callee f' P g g'
  place : s.Starts f callee g g' ∨ Hoists callee f.registers.size P g' memory' ∧ (s.Aligned f callee g g' ∨ s.Behind f g g')

variable {s f callee f'}

theorem Left.of_nil {l' : List Instruction} (h : s.Left f callee x [] l') : x ≠ s.block ∧ l' = [] := by
  unfold Left at h
  split at h
  · obtain ⟨rest, hl, -⟩ := h
    exact absurd hl (by simp)
  · exact ⟨‹_›, by simpa using h⟩

/-- The next instruction of the original is the call that is gone, or the next one here too. -/
theorem Left.of_cons {i : Instruction} {rest l' : List Instruction} (h : s.Left f callee x (i :: rest) l') :
    (x = s.block ∧ i = .call s.dest callee.name s.args s.ret ∧ rest = s.after ∧ l' = []) ∨
      ∃ rest', l' = i.mapIncoming (s.edges f x) :: rest' ∧ s.Left f callee x rest rest' := by
  unfold Left at h
  split at h
  · rename_i hx
    obtain ⟨todo, hl, rfl⟩ := h
    cases todo with
    | nil =>
      cases hl
      exact .inl ⟨hx, rfl, rfl, rfl⟩
    | cons j todo =>
      cases hl
      refine .inr ⟨_, rfl, ?_⟩
      rw [Left, if_pos hx]
      exact ⟨todo, rfl, rfl⟩
  · rename_i hx
    refine .inr ⟨rest.map (·.mapIncoming (s.edges f x)), by rw [h, List.map_cons], ?_⟩
    rw [Left, if_neg hx]

/-- At the start of a block all of it is left. -/
theorem left_block {b X : Block} (hs : f.CallAt callee s b) (hX : f.block? x = some X) :
    s.Left f callee x X.instructions (s.own f x X) := by
  unfold Left own
  split
  · rename_i hx
    subst hx
    obtain rfl := Option.some.inj (hs.block.symm.trans hX)
    exact ⟨s.before, hs.instructions, rfl⟩
  · rfl

/-- How the edges of the phis of a block are renamed. -/
def turned (s : Splice) (f : Function) (x : BlockId) : BlockId → BlockId :=
  if x ∈ s.successors then s.moved f else id

theorem mapIncoming_edges (x : BlockId) (i : Instruction) : i.mapIncoming (s.edges f x) = i.rename id id (s.turned f x) := by
  unfold edges turned
  split
  · cases i <;> simp [Instruction.rename, Instruction.mapOperands, Instruction.mapDest, Instruction.mapIncoming, moved]
  · rw [Instruction.rename_id]
    exact i.mapIncoming_id

/-- Control comes from the block by which the edges of a phi are named after inlining. -/
theorem turned_previous {b : Block} (hs : f.CallAt callee s b) {p : BlockId} (hp : f.Precedes p x) :
    s.turned f x p = s.moved f p ∧ ∀ q, f.Precedes q x → s.turned f x q = s.turned f x p → q = p := by
  have hlt : ∀ {q}, f.Precedes q x → q < f.blocks.length := fun ⟨Q, hQ, _⟩ => Function.lt_of_block? hQ
  unfold turned
  split
  · refine ⟨rfl, fun q hq heq => ?_⟩
    simp only [moved] at heq
    split at heq
    · rename_i hqb
      split at heq
      · rename_i hpb
        exact hqb.trans hpb.symm
      · exact absurd (heq ▸ hlt hp) (Nat.lt_irrefl _)
    · split at heq
      · exact absurd (heq ▸ hlt hq) (Nat.lt_irrefl _)
      · exact heq
  · rename_i hx
    refine ⟨?_, fun q _ heq => heq⟩
    have hne : p ≠ s.block := by
      rintro rfl
      obtain ⟨Q, hQ, hin⟩ := hp
      obtain rfl := Option.some.inj (hs.block.symm.trans hQ)
      exact hx (hs.successors ▸ hin)
    rw [moved, if_neg hne]
    rfl

/-- The registers of the slots of the copy. -/
theorem mem_dests_slots {r' : Register} :
    r' ∈ (s.slots f callee).filterMap (·.dest?) ↔ ∃ r, callee.IsSlot r ∧ r' = f.registers.size + r := by
  rw [Function.dests_slots, List.mem_map]
  constructor
  · rintro ⟨r, hr, rfl⟩
    obtain ⟨i, hi, hir⟩ := List.mem_filterMap.mp hr
    obtain ⟨hmem, ha⟩ := List.mem_filter.mp hi
    cases i with
    | alloca dest type =>
      cases hir
      exact ⟨_, ⟨type, hmem⟩, rfl⟩
    | _ => cases ha
  · rintro ⟨r, ⟨t, ht⟩, rfl⟩
    exact ⟨r, List.mem_filterMap.mpr ⟨_, List.mem_filter.mpr ⟨ht, rfl⟩, rfl⟩, rfl⟩

variable {I : Interface} {m m' : Module} {b : Block} {P P₁ : Cells} {g g' g₁ : Frame} {memory memory' memory₁ : Memory} {d : Datum}

/-- The data of the caller are all that counts. -/
theorem Carries.congr (h : Carries f callee f' P g g') (hfunction : g₁.function = g'.function) (hargs : g₁.args = g'.args)
    (hsize : g₁.registers.size = g'.registers.size) (hregisters : ∀ r, r < f.registers.size → g₁.registers[r]? = g'.registers[r]?) :
    Carries f callee f' P g g₁ where
  function := h.function
  function' := hfunction.trans h.function'
  likens := by
    refine ⟨hargs ▸ h.likens.args, hsize ▸ h.likens.size, fun r _ d hd => ?_⟩
    have hlt : r < f.registers.size := h.size ▸ (Array.getElem?_eq_some_iff.mp hd).1
    rw [hregisters r hlt]
    exact h.likens.registers r trivial d hd
  size := h.size
  size' := hsize.trans h.size'

/-- Before anything but a slot is run, the slots of the callee can be allocated. -/
theorem Follows.hoist (hc : callee.Shaped) (h : s.Follows f callee f' P g g' memory') (hmem : Mirrored m P memory memory')
    (hhead : s.Starts f callee g g' → ∀ i ∈ g.pending.head?, i.isAlloca = false) (m' : Module) (depth : Nat) :
    ∃ g'' memory'', Path m' depth g' memory' g'' memory'' ∧ Carries f callee f' P g g'' ∧
      Hoists callee f.registers.size P g'' memory'' ∧ (s.Aligned f callee g g'' ∨ s.Behind f g g'') ∧ Mirrored m P memory memory'' := by
  obtain ⟨hcarries, hstart | ⟨hhoists, hplace⟩⟩ := h
  · obtain ⟨l', hleft, hp⟩ := hstart.pending
    have hl' : l'.takeWhile (·.isAlloca) = [] ∧ l'.dropWhile (·.isAlloca) = l' := by
      cases hg : g.pending with
      | nil =>
        rw [hg] at hleft
        rw [hleft.of_nil.2]
        exact ⟨rfl, rfl⟩
      | cons i rest =>
        rw [hg] at hleft hhead
        have hi := hhead hstart i rfl
        rcases hleft.of_cons with ⟨-, -, -, rfl⟩ | ⟨rest', rfl, -⟩
        · exact ⟨rfl, rfl⟩
        · simp [hi]
    rw [hl'.1, hl'.2, List.nil_append] at hp
    have hsize : ∀ r ∈ (s.slots f callee).filterMap (·.dest?), r < g'.registers.size := by
      intro r' hr'
      obtain ⟨r, ⟨t, ht⟩, rfl⟩ := mem_dests_slots.mp hr'
      rw [hcarries.size']
      exact Nat.add_lt_add_left (hc.sized _ ht r rfl) _
    obtain ⟨g'', memory'', hpath, hp'', halloc⟩ := path_allocas (m := m') depth (fun _ => Function.isAlloca_slot) (Function.nodup_dests_slots hc) hp hsize
    have hcells : ∀ r, callee.IsSlot r → ∃ c, g''.registers[f.registers.size + r]? = some (.pointer c) ∧ memory'.size ≤ c ∧ c < memory''.size :=
      fun r hr => halloc.cells _ (mem_dests_slots.mpr ⟨r, hr, rfl⟩)
    have hfields := halloc.same
    refine ⟨g'', memory'', hpath, hcarries.congr (by rw [hfields]) (by rw [hfields]) halloc.size (fun r hr => halloc.kept r fun hin => ?_),
      ⟨?_, ?_⟩, .inl ⟨?_, ?_, ?_⟩, halloc.mirrored hmem⟩
    · obtain ⟨q, -, rfl⟩ := mem_dests_slots.mp hin
      exact absurd hr (Nat.not_lt.mpr (Nat.le_add_right _ _))
    · intro r hr
      obtain ⟨c, hc, hlo, hhi⟩ := hcells r hr
      exact ⟨c, hc, hhi, fun a ha => absurd (hmem.lt_right ha) (Nat.not_lt.mpr hlo)⟩
    · intro r q c hr hq hrc hqc
      exact Nat.add_left_cancel (halloc.apart _ (mem_dests_slots.mpr ⟨r, hr, rfl⟩) _ (mem_dests_slots.mpr ⟨q, hq, rfl⟩) c hrc hqc)
    · rw [hfields]
      exact hstart.block
    · rw [hfields]
      exact hstart.previous
    · rw [hp'']
      exact hleft
  · exact ⟨g', memory', .refl, hcarries, hhoists, hplace, hmem⟩

/-- Both frames are at the end of a block: it is the same end, and the block is named as phis name it. -/
theorem at_end (h : f.Spliced callee s f') (hs : f.CallAt callee s b) (hcarries : Carries f callee f' P g g')
    (hplace : s.Aligned f callee g g' ∨ s.Behind f g g') (hp : g.pending = []) {A : Block} (hA : g.function.block? g.block = some A) :
    g'.pending = [] ∧ g'.block = s.moved f g.block ∧ ∃ A', g'.function.block? g'.block = some A' ∧ A'.terminator = A.terminator := by
  rw [hcarries.function] at hA
  rw [hcarries.function']
  rcases hplace with hplace | hplace
  · have hleft := hplace.pending
    rw [hp] at hleft
    obtain ⟨hne, hp'⟩ := hleft.of_nil
    refine ⟨hp', by rw [hplace.block, moved, if_neg hne], _, by rw [hplace.block]; exact h.own _ A hA, ?_⟩
    simp [ownBlock, hne]
  · obtain ⟨label, hnext⟩ := h.next
    rw [hplace.block, hs.block] at hA
    cases hA
    refine ⟨hplace.pending.trans hp, by rw [hplace.block', hplace.block, moved, if_pos rfl], _, by rw [hplace.block']; exact hnext, ?_⟩
    exact hs.terminator.symm

/-- At the start of a block other than the entry. -/
theorem aligned_goto (h : f.Spliced callee s f') (hs : f.CallAt callee s b) {y : BlockId} {Y : Block}
    (hY : f.block? y = some Y) (hy : y ≠ f.entry) (hblock : g'.block = s.moved f g.block) :
    ∃ Y', f'.block? y = some Y' ∧ s.Aligned f callee (g.goto y Y) (g'.goto y Y') := by
  refine ⟨_, h.own y Y hY, rfl, congrArg some hblock, ?_⟩
  have hinstructions : (s.ownBlock f callee y Y).instructions = s.own f y Y := by
    simp [ownBlock, hy]
  show s.Left f callee y Y.instructions (s.ownBlock f callee y Y).instructions
  rw [hinstructions]
  exact left_block hs hY

theorem Carries.put (h : Carries f callee f' P g g') (hle : P ≤ P₁) {dest : Option Register} {d d' : Datum} (hd : d.Alike P₁ d')
    (rest rest' : List Instruction) : Carries f callee f' P₁ ((g.behind rest).put dest d) ((g'.behind rest').put dest d') where
  function := by simp [Frame.behind, h.function]
  function' := by simp [Frame.behind, h.function']
  likens := ((h.likens.mono hle).behind rest rest').put hd
  size := by cases dest <;> simp [Frame.put, Frame.behind, h.size]
  size' := by cases dest <;> simp [Frame.put, Frame.behind, h.size']

/-- Behind an instruction that stands on both sides. -/
theorem Aligned.put (h : s.Aligned f callee g g') {rest rest' : List Instruction} (hleft : s.Left f callee g.block rest rest')
    (dest : Option Register) (d d' : Datum) : s.Aligned f callee ((g.behind rest).put dest d) ((g'.behind rest').put dest d') where
  block := by simpa [Frame.behind] using h.block
  previous := by simpa [Frame.behind] using h.previous
  pending := by simpa [Frame.behind] using hleft

theorem Behind.put (h : s.Behind f g g') {i : Instruction} {rest : List Instruction} (hp : g.pending = i :: rest)
    (dest : Option Register) (d d' : Datum) : s.Behind f ((g.behind rest).put dest d) ((g'.behind rest).put dest d') where
  block := by simpa [Frame.behind] using h.block
  block' := by simpa [Frame.behind] using h.block'
  pending := by simp [Frame.behind]
  after := by
    obtain ⟨done, hafter⟩ := h.after
    exact ⟨done ++ [i], by simp [Frame.behind, hafter, hp]⟩

/-- The registers of the slots of the copy are none of the caller's own. -/
theorem Carries.slot_put (h : Carries f callee f' P g g') {dest : Option Register} (htakes : g.Takes dest) (d' : Datum)
    (rest' : List Instruction) (r : Register) :
    ((g'.behind rest').put dest d').registers[f.registers.size + r]? = g'.registers[f.registers.size + r]? := by
  cases dest with
  | none => rfl
  | some q =>
    have hq : q < f.registers.size := h.size ▸ htakes q rfl
    exact Array.getElem?_setIfInBounds_ne (Nat.ne_of_lt (Nat.lt_of_lt_of_le hq (Nat.le_add_right _ _)))

section

variable (hm : m.WellFormed I) (hx : m.Exchanges m' f f') (h : f.Spliced callee s f') (hs : f.CallAt callee s b)
  (hg : g.Sound I m memory) (hmem : Mirrored m P memory memory')
include hm hx h hs hg hmem

/-- With the slots of the callee allocated, the caller moves as its original does. -/
theorem Carries.moves (hcarries : Carries f callee f' P g g') (hhoists : Hoists callee f.registers.size P g' memory')
    (hplace : s.Aligned f callee g g' ∨ s.Behind f g g') (hmove : g.Moves m memory g₁ memory₁) :
    ∃ P₁ g₁' memory₁', P ≤ P₁ ∧ g'.Moves m' memory' g₁' memory₁' ∧ s.Follows f callee f' P₁ g₁ g₁' memory₁' ∧
      Mirrored m P₁ memory₁ memory₁' := by
  have hwf : f.WellFormed I := hcarries.function ▸ hg.wellFormed hm
  cases hmove with
  | @compute i rest d _ hp hd htakes =>
    -- what is left of the block on both sides, and how the instruction is named here
    obtain ⟨τ, rest', hp', hprev, hplace'⟩ : ∃ τ rest', g'.pending = i.rename id id τ :: rest' ∧
        (∀ dest type incoming p, i = .phi dest type incoming → g.previous = some p →
          g'.previous = some (τ p) ∧ ∀ e ∈ incoming, τ e.2 = τ p → e.2 = p) ∧
        ∀ (d d' : Datum), s.Aligned f callee ((g.behind rest).put i.dest? d) ((g'.behind rest').put i.dest? d') ∨
          s.Behind f ((g.behind rest).put i.dest? d) ((g'.behind rest').put i.dest? d') := by
      rcases hplace with hplace | hplace
      · have hleft := hplace.pending
        rw [hp] at hleft
        rcases hleft.of_cons with ⟨-, rfl, -⟩ | ⟨rest', hp', hleft'⟩
        · cases hd
        · refine ⟨s.turned f g.block, rest', by rw [hp', mapIncoming_edges], ?_, fun d d' => .inl (hplace.put hleft' _ d d')⟩
          · rintro dest type incoming p rfl hprevious
            have hprec := hg.precedes hprevious
            rw [hcarries.function] at hprec
            obtain ⟨hturned, hinj⟩ := turned_previous hs hprec
            refine ⟨by rw [hplace.previous, hprevious, hturned]; rfl, fun e he => hinj e.2 ?_⟩
            obtain ⟨B, before, hat⟩ := hg.place
            have hB := hat.block
            rw [hcarries.function] at hB
            have hin : .phi dest type incoming ∈ B.instructions := by simp [hat.instructions, hp]
            exact ((hwf.shaped.phi_edges_of_mem hB hin).2 e.2).mp (List.mem_map_of_mem he)
      · obtain ⟨done, hafter⟩ := hplace.after
        have hphi : i.isPhi = false := hs.after_isPhi hwf (by simp [hafter, hp])
        refine ⟨id, rest, by rw [Instruction.rename_id, hplace.pending, hp], ?_, fun d d' => .inr (hplace.put hp _ d d')⟩
        rintro dest type incoming p rfl
        cases hphi
    obtain ⟨P₁, d', memory₁', hle, hd', halike, hmem', hfresh⟩ := hcarries.likens.computes hmem hx.globals hm hg hp (fun _ _ => trivial) hprev hd
    have hdest : (i.rename id id τ).dest? = i.dest? := by
      cases i <;> simp [Instruction.rename, Instruction.mapOperands, Instruction.mapDest, Instruction.mapIncoming, Instruction.dest?]
    have hmove' : g'.Moves m' memory' ((g'.behind rest').put i.dest? d') memory₁' :=
      hdest ▸ .compute hp' hd' (hdest ▸ hcarries.likens.takes htakes)
    refine ⟨P₁, _, memory₁', hle, hmove', ⟨hcarries.put hle halike rest rest', .inr ⟨?_, hplace' d d'⟩⟩, hmem'⟩
    exact hhoists.mono hmove'.size_le (fun a b hab => (hfresh a b hab).imp_right And.right) fun r _ => hcarries.slot_put htakes d' rest' r
  | @goto y A Y hp hA hleads hY =>
    obtain ⟨hp', hblock, A', hA', hterm⟩ := at_end h hs hcarries hplace hp hA
    have hleads' := hcarries.likens.leads hmem hx.globals (fun _ _ _ _ => trivial) hleads
    have hy : y ≠ f.entry := by
      rintro rfl
      rw [hcarries.function] at hA
      exact hwf.shaped.entry_free A (List.mem_of_getElem? hA) hleads.mem_successors
    rw [hcarries.function] at hY
    obtain ⟨Y', hY', haligned⟩ : ∃ Y', f'.block? y = some Y' ∧ s.Aligned f callee (g.goto y Y) (g'.goto y Y') :=
      aligned_goto h hs hY hy hblock
    refine ⟨P, g'.goto y Y', memory', le_refl P, .goto hp' hA' (hterm ▸ hleads') (hcarries.function' ▸ hY'), ⟨⟨hcarries.function,
      hcarries.function', hcarries.likens.goto y y Y Y', hcarries.size, hcarries.size'⟩, .inr ⟨?_, .inl haligned⟩⟩, hmem⟩
    exact hhoists.mono (Nat.le_refl _) (fun _ _ => .inl) fun _ _ => rfl

omit h hs in
/-- A slot of the caller itself is allocated at the start. -/
theorem Carries.allocates (hcarries : Carries f callee f' P g g') (hstart : s.Starts f callee g g') {r : Register} {t : Ty}
    {rest : List Instruction} (hp : g.pending = .alloca r t :: rest) (htakes : g.Takes (some r)) :
    ∃ P₁ g₁' memory₁', P ≤ P₁ ∧ g'.Moves m' memory' g₁' memory₁' ∧
      s.Follows f callee f' P₁ ((g.behind rest).put (some r) (.pointer memory.size)) g₁' memory₁' ∧
      Mirrored m P₁ (memory.push .undef) memory₁' := by
  obtain ⟨l', hleft, hp'⟩ := hstart.pending
  rw [hp] at hleft
  rcases hleft.of_cons with ⟨-, hcall, -⟩ | ⟨rest', rfl, hleft'⟩
  · cases hcall
  · have hcomputes : g.Computes m memory (.alloca r t) (.pointer memory.size) (memory.push .undef) := .alloca
    obtain ⟨P₁, d', memory₁', hle, hd', halike, hmem', -⟩ := hcarries.likens.computes hmem hx.globals hm hg hp (fun _ _ => trivial)
      (τ := id) nofun hcomputes
    rw [Instruction.rename_id] at hd'
    have hp'' : g'.pending = .alloca r t :: (rest'.takeWhile (·.isAlloca) ++ s.slots f callee ++ rest'.dropWhile (·.isAlloca)) := by
      simpa [Instruction.mapIncoming, Instruction.isAlloca] using hp'
    refine ⟨P₁, _, memory₁', hle, .compute hp'' hd' (hcarries.likens.takes htakes), ⟨hcarries.put hle halike rest _, .inl ⟨?_, ?_, ?_, rest', ?_, ?_⟩⟩,
      hmem'⟩
    · simpa [Frame.behind] using hstart.entry
    · simpa [Frame.behind] using hstart.block
    · simpa [Frame.behind] using hstart.previous
    · simpa [Frame.behind] using hleft'
    · simp [Frame.behind]

/-- The caller moves as its original does. -/
theorem Follows.moves (hc : callee.Shaped) (hfollows : s.Follows f callee f' P g g' memory') (hmove : g.Moves m memory g₁ memory₁)
    (depth : Nat) : ∃ P₁ g₁' memory₁', P ≤ P₁ ∧ Path m' depth g' memory' g₁' memory₁' ∧ s.Follows f callee f' P₁ g₁ g₁' memory₁' ∧
      Mirrored m P₁ memory₁ memory₁' := by
  by_cases hhead : s.Starts f callee g g' → ∀ i ∈ g.pending.head?, i.isAlloca = false
  · obtain ⟨g'', memory'', hpath, hcarries, hhoists, hplace, hmem'⟩ := hfollows.hoist hc hmem hhead m' depth
    obtain ⟨P₁, g₁', memory₁', hle, hmove', hfollows', hmem₁⟩ := hcarries.moves hm hx h hs hg hmem' hhoists hplace hmove
    exact ⟨P₁, g₁', memory₁', hle, hpath.trans hmove'.path, hfollows', hmem₁⟩
  · obtain ⟨hstart, hhead⟩ := Classical.not_imp.mp hhead
    cases hmove with
    | @compute i rest d _ hp hd htakes =>
      have hi : i.isAlloca = true := by simpa [hp] using hhead
      cases hd with
      | alloca =>
        obtain ⟨P₁, g₁', memory₁', hle, hmove', hfollows', hmem₁⟩ := hfollows.carries.allocates hm hx hg hmem hstart hp htakes
        exact ⟨P₁, g₁', memory₁', hle, hmove'.path, hfollows', hmem₁⟩
      | _ => cases hi
    | goto hp _ _ _ => exact absurd (by simp [hp]) hhead

omit hm hg in
/-- The caller returns what its original does. -/
theorem Follows.returns (hc : callee.Shaped) (hfollows : s.Follows f callee f' P g g' memory') (hd : g.Returns m d) (hplain : d.Plain)
    (depth : Nat) : ∃ g'' memory'', Path m' depth g' memory' g'' memory'' ∧ g''.Returns m' d ∧ Mirrored m P memory memory'' := by
  obtain ⟨hp, A, hA, hyields⟩ := hd
  obtain ⟨g'', memory'', hpath, hcarries, -, hplace, hmem'⟩ := hfollows.hoist hc hmem (fun _ => by simp [hp]) m' depth
  obtain ⟨hp', -, A', hA', hterm⟩ := at_end h hs hcarries hplace hp hA
  refine ⟨g'', memory'', hpath, ⟨hp', A', hA', ?_⟩, hmem'⟩
  rw [hterm]
  exact hcarries.likens.yields hmem hx.globals (fun _ _ _ _ => trivial) hplain hyields

end

end IR.Splice

end Ember
