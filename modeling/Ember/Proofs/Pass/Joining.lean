import Ember.Proofs.IR.Block
import Ember.Proofs.Pass.Unreachable

/-!
# Joining blocks

A block is joined to the only block that jumps to it. Behind the instructions of the first block the same facts hold as at the start
of the second one, since the jump is the only edge between them; so the function stays well formed.
-/

namespace Ember.IR

/-- Renames the source of the edges of phis. -/
def Block.renameSource (old new : BlockId) (B : Block) : Block :=
  B.mapInstructions (·.mapIncoming (·.map fun (value, source) => (value, if source = old then new else source)))

namespace Block

theorem renameSource_renameSource (old new : BlockId) (B : Block) :
    (B.renameSource old new).renameSource old new = B.renameSource old new := by
  have : ∀ e : Value × BlockId, (if (if e.2 = old then new else e.2) = old then new else
      (if e.2 = old then new else e.2)) = if e.2 = old then new else e.2 := by
    intro e
    by_cases h : e.2 = old <;> simp [h]
  have : ∀ i : Instruction,
      (i.mapIncoming (·.map fun (value, source) => (value, if source = old then new else source))).mapIncoming
        (·.map fun (value, source) => (value, if source = old then new else source)) =
      i.mapIncoming (·.map fun (value, source) => (value, if source = old then new else source)) := by
    intro i
    cases i <;> simp [Instruction.mapIncoming, this]
  simp only [renameSource, mapInstructions, List.map_map]
  congr 1
  exact List.map_congr_left fun i _ => this i

end Block

namespace Function

variable {I : Interface} {f : Function}

/-- Renaming the source of the edges of phis in several blocks, all at once. -/
theorem foldl_renamePhiSource (targets : List BlockId) (old new : BlockId) (f : Function) :
    targets.foldl (·.renamePhiSource · old new) f = { f with
      blocks := f.blocks.mapIdx fun b B => if b ∈ targets then B.renameSource old new else B } := by
  refine (foldl_modifyBlock id (fun _ => (·.renameSource old new)) targets f).trans ?_
  congr 2
  funext b B
  induction targets generalizing B with
  | nil => simp
  | cons target targets ih =>
    rw [List.foldl_cons, ih]
    by_cases ht : target = b
    · subst ht
      by_cases hb : target ∈ targets <;> simp [hb, Block.renameSource_renameSource]
    · simp [ht, Ne.symm ht]

/-- The first of two blocks jumps to the second, and nothing else leads there. -/
structure Joinable (f : Function) (first second : BlockId) (A B : Block) : Prop where
  first_block : f.block? first = some A
  second_block : f.block? second = some B
  jump : A.terminator = some (.jump second)
  only : ∀ p P, f.block? p = some P → second ∈ P.successors → p = first
  ne : second ≠ first
  not_entry : second ≠ f.entry

/-- A member of two of the lists of a row counts twice. -/
theorem two_le_count_flatMap {α β : Type} [BEq β] [LawfulBEq β] {g : α → List β} {b : β} {l : List α} {i j : Nat} {x y : α}
    (hi : l[i]? = some x) (hj : l[j]? = some y) (hx : b ∈ g x) (hy : b ∈ g y) (hne : i ≠ j) : 2 ≤ (l.flatMap g).count b := by
  have hpos : ∀ {l : List α} {k z}, l[k]? = some z → b ∈ g z → 0 < (l.flatMap g).count b := fun hk hz =>
    List.count_pos_iff.mpr (List.mem_flatMap.mpr ⟨_, List.mem_of_getElem? hk, hz⟩)
  induction l generalizing i j with
  | nil => simp at hi
  | cons z l ih =>
    rw [List.flatMap_cons, List.count_append]
    cases i with
    | zero =>
      cases hi
      have hz := List.count_pos_iff.mpr hx
      cases j with
      | zero => exact absurd rfl hne
      | succ j => exact Nat.add_le_add hz (hpos (l := l) hj hy)
    | succ i =>
      cases j with
      | zero =>
        cases hj
        exact Nat.add_le_add (List.count_pos_iff.mpr hy) (hpos (l := l) hi hx)
      | succ j => exact Nat.le_add_left_of_le (ih hi hj (by omega))

/-- The blocks that are found can be joined. -/
theorem exists_joinable (hids : ∀ B ∈ f.blocks, f.block? B.id = some B) {first second : BlockId} (h : f.joinable? = some (first, second)) :
    ∃ A B, f.Joinable first second A B := by
  obtain ⟨A, hA, hs⟩ := List.exists_of_findSome?_eq_some h
  split at hs
  · rename_i target ht
    split at hs
    · rename_i hcond
      cases hs
      simp only [Bool.and_eq_true, decide_eq_true_eq, beq_iff_eq, bne_iff_ne] at hcond
      obtain ⟨⟨⟨hlt, hcount⟩, hne⟩, hentry⟩ := hcond
      have hA := hids A hA
      refine ⟨A, f.blocks[second], hA, List.getElem?_eq_getElem hlt, ht, fun p P hP hsucc => ?_, hne, hentry⟩
      by_contra hpa
      have hmem : second ∈ A.successors := by simp [Block.successors, ht, Terminator.successors]
      have := two_le_count_flatMap (g := (·.successors)) hP hA hsucc hmem hpa
      rw [edgesTo] at hcount
      omega
    · cases hs
  · cases hs

/-! ## The joined function -/

section

variable {first second : BlockId} {A B : Block}

/-- How the edges of phis change when block `B` is joined to another. -/
def joinedEdges (first second : BlockId) (B : Block) (x : BlockId) (incoming : List (Value × BlockId)) :
    List (Value × BlockId) :=
  if x ∈ B.successors then incoming.map fun (value, source) => (value, if source = second then first else source)
  else incoming

variable {x : BlockId} {X' X : Block} {k : Fact} {dest : Register} {type : Ty}

theorem joinedEdges_of_mem (hx : x ∈ B.successors) : joinedEdges first second B x =
    List.map fun (value, source) => (value, if source = second then first else source) := by
  funext incoming
  rw [joinedEdges, if_pos hx]

theorem joinedEdges_of_not_mem (hx : x ∉ B.successors) : joinedEdges first second B x = id := by
  funext incoming
  rw [joinedEdges, if_neg hx, id]

theorem exists_of_mem_joinedEdges (incoming : List (Value × BlockId)) :
    ∀ e ∈ joinedEdges first second B x incoming, ∃ e' ∈ incoming, e'.1 = e.1 := by
  intro e he
  unfold joinedEdges at he
  split at he
  · obtain ⟨e', he', rfl⟩ := List.mem_map.mp he
    exact ⟨e', he', rfl⟩
  · exact ⟨e, he, rfl⟩

/-- What becomes of a block other than the second one. -/
def joinedBlock (first second : BlockId) (B : Block) (x : BlockId) (X : Block) : Block :=
  { X with
    instructions := X.instructions.map (·.mapIncoming (joinedEdges first second B x)) ++
      if x = first then B.instructions.map copyOfPhi else []
    terminator := if x = first then B.terminator else X.terminator }

/-- A copy in the place of a phi is no phi. -/
@[simp] theorem isPhi_copyOfPhi (i : Instruction) : (copyOfPhi i).isPhi = false := by cases i <;> rfl

@[simp] theorem dest?_copyOfPhi (i : Instruction) : (copyOfPhi i).dest? = i.dest? := by cases i <;> rfl

@[simp] theorem isAlloca_copyOfPhi (i : Instruction) : (copyOfPhi i).isAlloca = i.isAlloca := by cases i <;> rfl

@[simp] theorem gives_copyOfPhi (i : Instruction) (k : Fact) : (copyOfPhi i).Gives k ↔ i.Gives k := by
  cases k with
  | set r => simp [Instruction.Gives]
  | filled r => cases i <;> simp [Instruction.Gives, copyOfPhi]

theorem successors_joinedBlock : (joinedBlock first second B x X).successors = if x = first then B.successors else X.successors := by
  by_cases hx : x = first <;> simp [joinedBlock, Block.successors, hx]

/-- A fact that a block gives is given by what becomes of it. -/
theorem gives_joinedBlock (h : X.Gives k) : (joinedBlock first second B x X).Gives k := by
  obtain ⟨i, hi, hg⟩ := h
  exact ⟨_, List.mem_append_left _ (List.mem_map.mpr ⟨i, hi, rfl⟩), (i.gives_mapIncoming _ k).mpr hg⟩

/-- What the second block gives is given by what becomes of the first one. -/
theorem gives_joinedBlock_first (h : B.Gives k) : (joinedBlock first second B first A).Gives k := by
  obtain ⟨i, hi, hg⟩ := h
  refine ⟨copyOfPhi i, List.mem_append_right _ ?_, (gives_copyOfPhi i k).mpr hg⟩
  rw [if_pos rfl]
  exact List.mem_map.mpr ⟨i, hi, rfl⟩

/-- A place of a block of the joined function is a place of the block, or of the second block behind the first one. -/
theorem joinedBlock_split {before' after' : List Instruction} {i' : Instruction}
    (hl : (joinedBlock first second B x X).instructions = before' ++ i' :: after') :
    (∃ before i after, X.instructions = before ++ i :: after ∧
        before' = before.map (·.mapIncoming (joinedEdges first second B x)) ∧
        i' = i.mapIncoming (joinedEdges first second B x)) ∨
      x = first ∧ ∃ before i after, B.instructions = before ++ i :: after ∧
        before' = X.instructions.map (·.mapIncoming (joinedEdges first second B x)) ++ before.map copyOfPhi ∧
        i' = copyOfPhi i := by
  rw [joinedBlock] at hl
  have hcopied : ∀ {l}, (if x = first then B.instructions.map copyOfPhi else []) = l ++ i' :: after' →
      x = first ∧ ∃ before i after, B.instructions = before ++ i :: after ∧ l = before.map copyOfPhi ∧ i' = copyOfPhi i := by
    intro l hl
    split at hl
    · rename_i hx
      obtain ⟨before, tail, hB, rfl, htail⟩ := List.map_eq_append_iff.mp hl
      obtain ⟨i, after, rfl, rfl, -⟩ := List.map_eq_cons_iff.mp htail
      exact ⟨hx, before, i, after, hB, rfl, rfl⟩
    · simp at hl
  rcases List.append_eq_append_iff.mp hl with ⟨l, rfl, hc⟩ | ⟨l, hown, hl'⟩
  · obtain ⟨hx, before, i, after, hB, rfl, rfl⟩ := hcopied hc
    exact .inr ⟨hx, before, i, after, hB, rfl, rfl⟩
  · cases l with
    | nil =>
      rw [List.append_nil] at hown
      obtain ⟨hx, before, i, after, hB, hnil, rfl⟩ := hcopied (l := []) hl'.symm
      exact .inr ⟨hx, before, i, after, hB, by rw [← hown, ← hnil, List.append_nil], rfl⟩
    | cons j l =>
      rw [List.cons_append, List.cons.injEq] at hl'
      obtain ⟨rfl, -⟩ := hl'
      obtain ⟨before, tail, hX, rfl, htail⟩ := List.map_eq_append_iff.mp hown
      obtain ⟨i, after, rfl, rfl, -⟩ := List.map_eq_cons_iff.mp htail
      exact .inl ⟨before, i, after, hX, rfl, rfl⟩

variable (h : f.Joinable first second A B)

include h

theorem Joinable.mem_successors : second ∈ A.successors := by simp [Block.successors, h.jump, Terminator.successors]

theorem Joinable.not_mem_successors : second ∉ B.successors :=
  fun hs => h.ne (h.only second B h.second_block hs)

/-- Joining keeps everything but the blocks, and their number. -/
theorem Joinable.join_eq : f.join first second = { f with
    blocks := f.blocks.mapIdx fun x X =>
      if x = second then { X with instructions := [], terminator := some .unreachable }
      else joinedBlock first second B x X } := by
  have hself := h.not_mem_successors
  rw [join, h.second_block]
  simp only [foldl_renamePhiSource, modifyBlock, Function.mk.injEq, true_and, and_true]
  refine List.ext_getElem? fun x => ?_
  simp only [List.getElem?_mapIdx, List.getElem?_modify]
  cases hX : f.blocks[x]? with
  | none => rfl
  | some X =>
    by_cases hx : x = second
    · subst hx
      have hne : first ≠ x := Ne.symm h.ne
      simp [hself, hne]
    · have hne : second ≠ x := Ne.symm hx
      by_cases hf : x = first
      · subst hf
        have hphi : ∀ g, (fun i => (copyOfPhi i).mapIncoming g) = copyOfPhi :=
          fun g => funext fun i => (copyOfPhi i).mapIncoming_of_not_phi g (isPhi_copyOfPhi i)
        by_cases hs : x ∈ B.successors
        · simp only [hs, joinedBlock, joinedEdges_of_mem hs, Block.renameSource, Block.mapInstructions]
          simp [hx, hne, hphi, Function.comp_def]
        · simp [hx, hne, hs, joinedBlock, joinedEdges_of_not_mem hs]
      · have hf' : first ≠ x := Ne.symm hf
        by_cases hs : x ∈ B.successors
        · simp [hx, hne, hf, hf', hs, joinedBlock, joinedEdges_of_mem hs, Block.renameSource, Block.mapInstructions]
        · simp [hx, hne, hf, hf', hs, joinedBlock, joinedEdges_of_not_mem hs]

theorem Joinable.block?_second :
    (f.join first second).block? second = some { B with instructions := [], terminator := some .unreachable } := by
  have hB : f.blocks[second]? = some B := h.second_block
  rw [h.join_eq, block?, List.getElem?_mapIdx, hB, Option.map_some, if_pos rfl]

theorem Joinable.block?_of_ne (hx : x ≠ second) : (f.join first second).block? x = (f.block? x).map (joinedBlock first second B x) := by
  rw [h.join_eq, block?, List.getElem?_mapIdx]
  simp [hx, block?]

theorem Joinable.block?_other (hX : f.block? x = some X) (hx : x ≠ second) :
    (f.join first second).block? x = some (joinedBlock first second B x X) := by
  rw [h.block?_of_ne hx, hX, Option.map_some]

/-- A block of the joined function is the empty second one, or what became of another. -/
theorem Joinable.block?_cases (hX' : (f.join first second).block? x = some X') :
    (x = second ∧ X'.instructions = [] ∧ X'.terminator = some .unreachable) ∨
      x ≠ second ∧ ∃ X, f.block? x = some X ∧ X' = joinedBlock first second B x X := by
  by_cases hx : x = second
  · subst hx
    rw [h.block?_second] at hX'
    cases hX'
    exact .inl ⟨rfl, rfl, rfl⟩
  · rw [h.block?_of_ne hx] at hX'
    obtain ⟨X, hX, rfl⟩ := Option.map_eq_some_iff.mp hX'
    exact .inr ⟨hx, X, hX, rfl⟩

/-- A block of the joined function that is not the empty one ends as a block of the function does: the first one as the second. -/
theorem Joinable.end_origin {t : Terminator} (hX' : (f.join first second).block? x = some X') (ht : X'.terminator = some t) :
    t = .unreachable ∧ x = second ∨
      x ≠ second ∧ ∃ Y, f.block? (if x = first then second else x) = some Y ∧ Y.terminator = some t := by
  rcases h.block?_cases hX' with ⟨hx, -, hu⟩ | ⟨hx, X, hX, rfl⟩
  · exact .inl ⟨Option.some.inj (ht.symm.trans hu), hx⟩
  · rw [joinedBlock] at ht
    dsimp only at ht
    refine .inr ⟨hx, ?_⟩
    split at ht
    · rename_i hxf
      exact ⟨B, by rw [if_pos hxf, h.second_block], ht⟩
    · rename_i hxf
      exact ⟨X, by rw [if_neg hxf, hX], ht⟩

/-- Ways of the joined function are ways of the function: what leaves the first block now left the second one. -/
theorem Joinable.reaches {avoid avoid' : Block → Prop}
    (hother : ∀ x X, avoid X → avoid' (joinedBlock first second B x X)) (hfirst : avoid B → avoid' (joinedBlock first second B first A))
    (hr : (f.join first second).Reaches avoid' x) : f.Reaches avoid x ∧ x ≠ second := by
  have hentry : (f.join first second).entry = f.entry := by rw [h.join_eq]
  induction hr with
  | entry => exact ⟨hentry ▸ .entry, hentry ▸ Ne.symm h.not_entry⟩
  | @edge p s P' _ hP' hn hs ih =>
    obtain ⟨hp, hne⟩ := ih
    rcases h.block?_cases hP' with ⟨rfl, -⟩ | ⟨-, P, hP, rfl⟩
    · exact absurd rfl hne
    · rw [successors_joinedBlock] at hs
      have hav : ¬avoid P := fun ha => hn (hother p P ha)
      by_cases hpf : p = first
      · subst hpf
        rw [if_pos rfl] at hs
        obtain rfl : P = A := Option.some.inj (hP.symm.trans h.first_block)
        refine ⟨(hp.edge hP hav h.mem_successors).edge h.second_block (fun ha => hn (hfirst ha)) hs, ?_⟩
        rintro rfl
        exact h.not_mem_successors hs
      · rw [if_neg hpf] at hs
        refine ⟨hp.edge hP hav hs, ?_⟩
        rintro rfl
        exact hpf (h.only p P hP hs)

/-- What held at a place of a block other than the second one still holds there. -/
theorem Joinable.holds {before : List Instruction} (g : List (Value × BlockId) → List (Value × BlockId)) (hold : f.Holds k x before) :
    (f.join first second).Holds k x (before.map (·.mapIncoming g)) := by
  rcases hold with ⟨i, hi, hg⟩ | hno
  · exact .inl ⟨_, List.mem_map.mpr ⟨i, hi, rfl⟩, (i.gives_mapIncoming g k).mpr hg⟩
  · exact .inr fun hr => hno (h.reaches (fun _ _ => gives_joinedBlock) gives_joinedBlock_first hr).1

/-- What held at a place of the second block holds at its place behind the first one. -/
theorem Joinable.holds_second {before : List Instruction} (hold : f.Holds k second before) : (f.join first second).Holds k first
      (A.instructions.map (·.mapIncoming (joinedEdges first second B first)) ++ before.map copyOfPhi) := by
  rcases hold with ⟨i, hi, hg⟩ | hno
  · exact .inl ⟨_, List.mem_append_right _ (List.mem_map.mpr ⟨i, hi, rfl⟩), (gives_copyOfPhi i k).mpr hg⟩
  · exact (h.holds _ (Holds.at_end (.inr hno) h.first_block h.mem_successors)).append _

/-- Where an instruction of the joined function comes from: its own block, or the second block. -/
theorem Joinable.origin {i' : Instruction} (hX' : (f.join first second).block? x = some X') (hi' : i' ∈ X'.instructions) : x ≠ second ∧
      ((∃ X i, f.block? x = some X ∧ i ∈ X.instructions ∧ i' = i.mapIncoming (joinedEdges first second B x)) ∨
        x = first ∧ ∃ i ∈ B.instructions, i' = copyOfPhi i) := by
  rcases h.block?_cases hX' with ⟨-, hnil, -⟩ | ⟨hx, X, hX, rfl⟩
  · exact absurd (hnil ▸ hi') List.not_mem_nil
  · refine ⟨hx, ?_⟩
    rcases List.mem_append.mp hi' with hi' | hi'
    · obtain ⟨i, hi, rfl⟩ := List.mem_map.mp hi'
      exact .inl ⟨X, i, hX, hi, rfl⟩
    · by_cases hf : x = first
      · rw [if_pos hf] at hi'
        obtain ⟨i, hi, rfl⟩ := List.mem_map.mp hi'
        exact .inr ⟨hf, i, hi, rfl⟩
      · rw [if_neg hf] at hi'
        exact absurd hi' List.not_mem_nil

/-- Every instruction of the function is left in some form that sets the same register. -/
theorem Joinable.image {i : Instruction} (hi : i ∈ f.instructions) : ∃ i' ∈ (f.join first second).instructions, i'.dest? = i.dest? := by
  obtain ⟨x, X, hx, hi⟩ := mem_instructions.mp hi
  by_cases hs : x = second
  · subst hs
    obtain rfl : B = X := Option.some.inj (h.second_block.symm.trans hx)
    refine ⟨copyOfPhi i, mem_of_block? (h.block?_other h.first_block h.ne.symm) (List.mem_append_right _ ?_), dest?_copyOfPhi i⟩
    rw [if_pos rfl]
    exact List.mem_map.mpr ⟨i, hi, rfl⟩
  · exact ⟨_, mem_of_block? (h.block?_other hx hs) (List.mem_append_left _ (List.mem_map.mpr ⟨i, hi, rfl⟩)), i.dest?_mapIncoming _⟩

/-- The phi of the second block has the edge from the first one only. -/
theorem Joinable.phi_second (hf : f.Shaped) {incoming : List (Value × BlockId)} (hi : .phi dest type incoming ∈ B.instructions) :
    ∃ v, incoming = [(v, first)] := by
  obtain ⟨hn, hp⟩ := hf.phi_edges_of_mem h.second_block hi
  have hall : ∀ e ∈ incoming, e.2 = first := by
    intro e he
    obtain ⟨P, hP, hs⟩ := (hp e.2).mp (List.mem_map.mpr ⟨e, he, rfl⟩)
    exact h.only e.2 P hP hs
  cases incoming with
  | nil => exact absurd ((hp first).mpr ⟨A, h.first_block, h.mem_successors⟩) List.not_mem_nil
  | cons e incoming =>
    cases incoming with
    | nil => exact ⟨e.1, by rw [← hall e List.mem_cons_self]⟩
    | cons e' incoming =>
      rw [List.map_cons, List.map_cons, hall e List.mem_cons_self, hall e' (by simp)] at hn
      simp at hn

/-- Joining keeps the operands. -/
theorem Joinable.operands (hf : f.Shaped) {r : Register}
    (hr : .register r ∈ (f.join first second).operands) : .register r ∈ f.operands := by
  rcases operands_cases hr with ⟨x, X', i', hX', hi', hr⟩ | ⟨x, X', t, hX', ht, hr⟩
  · rcases h.origin hX' hi' with ⟨-, ⟨X, i, hX, hi, rfl⟩ | ⟨-, i, hi, rfl⟩⟩
    · exact mem_operands (mem_of_block? hX hi) (Instruction.operands_mapIncoming exists_of_mem_joinedEdges hr)
    · refine mem_operands (mem_of_block? h.second_block hi) ?_
      cases i with
      | phi dest type incoming =>
        obtain ⟨v, rfl⟩ := h.phi_second hf hi
        exact hr
      | _ => exact hr
  · rcases h.end_origin hX' ht with ⟨rfl, -⟩ | ⟨-, Y, hY, ht⟩
    · exact absurd hr List.not_mem_nil
    · exact mem_operands_end hY ht hr

/-- A register is set at one place of the joined function only. -/
theorem Joinable.once (hf : f.Shaped) : ((f.join first second).instructions.filterMap (·.dest?)).Nodup := by
  refine once_of_blocks (fun X' hX' => ?_) ?_
  · obtain ⟨x, hx⟩ := exists_block? hX'
    rcases h.block?_cases hx with ⟨-, hnil, -⟩ | ⟨-, X, hX, rfl⟩
    · simp [hnil]
    · have hown := hf.once_block (List.mem_of_getElem? hX)
      have hmap : (X.instructions.map (·.mapIncoming (joinedEdges first second B x))).filterMap (·.dest?) =
          X.instructions.filterMap (·.dest?) := by simp [List.filterMap_map]
      rw [joinedBlock, List.filterMap_append, hmap]
      by_cases hxf : x = first
      · subst hxf
        have hcopy : (B.instructions.map copyOfPhi).filterMap (·.dest?) = B.instructions.filterMap (·.dest?) := by
          simp [List.filterMap_map]
        rw [if_pos rfl, hcopy, List.nodup_append]
        refine ⟨hown, hf.once_block (List.mem_of_getElem? h.second_block), ?_⟩
        rintro r hr q hq rfl
        obtain ⟨i, hi, hir⟩ := List.mem_filterMap.mp hr
        obtain ⟨j, hj, hjr⟩ := List.mem_filterMap.mp hq
        exact h.ne (hf.unique h.second_block hX hj hi hjr hir).1
      · simpa [hxf] using hown
  · intro x y X' Y' i' j' r hX' hY' hi' hj' hir hjr
    -- A register of the second block is now set in the first one.
    have hfrom : ∀ {z Z' k'}, (f.join first second).block? z = some Z' → k' ∈ Z'.instructions → k'.dest? = some r →
        ∃ w W k, f.block? w = some W ∧ k ∈ W.instructions ∧ k.dest? = some r ∧
          z = if w = second then first else w := by
      intro z Z' k' hZ' hk' hkr
      rcases h.origin hZ' hk' with ⟨hz, ⟨Z, k, hZ, hk, rfl⟩ | ⟨rfl, k, hk, rfl⟩⟩
      · exact ⟨z, Z, k, hZ, hk, by simpa using hkr, by rw [if_neg hz]⟩
      · exact ⟨second, B, k, h.second_block, hk, by simpa using hkr, by rw [if_pos rfl]⟩
    obtain ⟨w, W, i, hW, hi, hir, rfl⟩ := hfrom hX' hi' hir
    obtain ⟨w', W', j, hW', hj, hjr, rfl⟩ := hfrom hY' hj' hjr
    rw [(hf.unique hW hW' hi hj hir hjr).1]

/-- Which blocks precede others in the joined function. -/
theorem Joinable.precedes_iff {p : BlockId} :
    (f.join first second).Precedes p x ↔ p ≠ second ∧ if p = first then x ∈ B.successors else f.Precedes p x := by
  constructor
  · rintro ⟨P', hP', hs⟩
    rcases h.block?_cases hP' with ⟨-, -, ht⟩ | ⟨hp, P, hP, rfl⟩
    · simp [Block.successors, ht, Terminator.successors] at hs
    · rw [successors_joinedBlock] at hs
      refine ⟨hp, ?_⟩
      split at hs
      · rename_i hpf
        rwa [if_pos hpf]
      · rename_i hpf
        rw [if_neg hpf]
        exact ⟨P, hP, hs⟩
  · rintro ⟨hp, hx⟩
    split at hx
    · rename_i hpf
      subst hpf
      exact ⟨_, h.block?_other h.first_block hp, by rwa [successors_joinedBlock, if_pos rfl]⟩
    · rename_i hpf
      obtain ⟨P, hP, hs⟩ := hx
      exact ⟨_, h.block?_other hP hp, by rwa [successors_joinedBlock, if_neg hpf]⟩

/-- A phi at the head of a block of the joined function comes from the phi at the head of the block. -/
theorem Joinable.phi_origin {incoming' : List (Value × BlockId)}
    (hX' : (f.join first second).block? x = some X') (hi' : .phi dest type incoming' ∈ X'.instructions) :
    x ≠ second ∧ ∃ X incoming, f.block? x = some X ∧
      .phi dest type incoming ∈ X.instructions ∧ incoming' = joinedEdges first second B x incoming := by
  rcases h.origin hX' hi' with ⟨hx, ⟨X, i, hX, hi, he⟩ | ⟨-, i, -, he⟩⟩
  · obtain ⟨incoming, rfl, rfl⟩ := Instruction.mapIncoming_eq_phi he.symm
    exact ⟨hx, X, incoming, hX, hi, rfl⟩
  · have := isPhi_copyOfPhi i
    rw [← he] at this
    cases this

/-- The phis of the joined function follow its flow. -/
theorem Joinable.phi_edges (hf : f.Shaped) {incoming' : List (Value × BlockId)}
    (hX' : (f.join first second).block? x = some X') (hi' : .phi dest type incoming' ∈ X'.instructions) :
    (incoming'.map (·.2)).Nodup ∧ ∀ p, p ∈ incoming'.map (·.2) ↔ (f.join first second).Precedes p x := by
  obtain ⟨hx, X, incoming, hX, hi, rfl⟩ := h.phi_origin hX' hi'
  obtain ⟨hn, hp⟩ := hf.phi_edges_of_mem hX hi
  -- The first block only led to the second one.
  have hfirst : first ∉ incoming.map (·.2) := by
    intro hmem
    obtain ⟨P, hP, hs⟩ := (hp first).mp hmem
    cases hP.symm.trans h.first_block
    simp only [Block.successors, h.jump, Terminator.successors, List.mem_singleton] at hs
    exact hx hs
  have hsecond : second ∈ incoming.map (·.2) ↔ x ∈ B.successors := by
    rw [hp]
    refine ⟨?_, fun hs => ⟨B, h.second_block, hs⟩⟩
    rintro ⟨P, hP, hs⟩
    cases hP.symm.trans h.second_block
    exact hs
  have hother : ∀ p, p ≠ first → (p ∈ incoming.map (·.2) ↔ f.Precedes p x) := fun p _ => hp p
  by_cases hs : x ∈ B.successors
  · have hmap : (joinedEdges first second B x incoming).map (·.2) =
        (incoming.map (·.2)).map fun p => if p = second then first else p := by
      rw [joinedEdges_of_mem hs, List.map_map, List.map_map]
      rfl
    rw [hmap]
    refine ⟨hn.map_on fun p hp q hq he => ?_, fun p => ?_⟩
    · grind
    · rw [h.precedes_iff, List.mem_map]
      have hne := h.ne
      grind
  · rw [joinedEdges_of_not_mem hs, id]
    refine ⟨hn, fun p => ?_⟩
    rw [h.precedes_iff]
    grind

/-- The joined function has the shape of a function. -/
theorem Joinable.shaped (hf : f.Shaped) : (f.join first second).Shaped := by
  have hlen : (f.join first second).blocks.length = f.blocks.length := by rw [h.join_eq, List.length_mapIdx]
  have hentry : (f.join first second).entry = f.entry := by rw [h.join_eq]
  have hregs : (f.join first second).registers = f.registers := by rw [h.join_eq]
  -- The edges of the joined function are edges of the function.
  have hsucc : ∀ {X'}, X' ∈ (f.join first second).blocks → ∀ s ∈ X'.successors, ∃ Y ∈ f.blocks, s ∈ Y.successors := by
    intro X' hX' s hs
    obtain ⟨x, hx⟩ := exists_block? hX'
    obtain ⟨-, hs⟩ := h.precedes_iff.mp ⟨X', hx, hs⟩
    split at hs
    · exact ⟨B, List.mem_of_getElem? h.second_block, hs⟩
    · obtain ⟨X, hX, hs⟩ := hs
      exact ⟨X, List.mem_of_getElem? hX, hs⟩
  refine
    { entry_lt := by rw [hlen, hentry]; exact hf.entry_lt
      ids := fun x X' hX' => ?_
      labels := ?_
      once := h.once hf
      sized := fun i' hi' r hr => ?_
      defined := fun r hr => ?_
      ended := fun X' hX' => ?_
      targets := fun X' hX' s hs => ?_
      entry_free := fun X' hX' hs => ?_
      phi_first := fun X' hX' i' hi' => ?_
      phi_entry := fun X' hX' i' hi' => ?_
      phi_edges := fun x X' dest type incoming rest hX' hl => h.phi_edges hf hX' (hl ▸ List.mem_cons_self)
      slots_first := fun x X' hX' => ?_ }
  · rw [block?, h.join_eq, List.getElem?_mapIdx] at hX'
    obtain ⟨X, hX, rfl⟩ := Option.map_eq_some_iff.mp hX'
    rw [← hf.ids x X hX]
    split <;> rfl
  · have : (f.join first second).labels = f.labels := labels_eq fun x => by
      by_cases hx : x = second
      · rw [hx, h.block?_second, h.second_block]
        rfl
      · rw [h.block?_of_ne hx, Option.map_map]
        rfl
    exact this ▸ hf.labels
  · obtain ⟨x, X', hx, hi'⟩ := mem_instructions.mp hi'
    rw [hregs]
    rcases h.origin hx hi' with ⟨-, ⟨X, i, hX, hi, rfl⟩ | ⟨-, i, hi, rfl⟩⟩
    · exact hf.sized i (mem_of_block? hX hi) r (by simpa using hr)
    · exact hf.sized i (mem_of_block? h.second_block hi) r (by simpa using hr)
  · obtain ⟨i, hi, hir⟩ := hf.defined r (h.operands hf hr)
    obtain ⟨i', hi', hd⟩ := h.image hi
    exact ⟨i', hi', hd.trans hir⟩
  · obtain ⟨x, hx⟩ := exists_block? hX'
    rcases h.block?_cases hx with ⟨-, -, ht⟩ | ⟨-, X, hX, rfl⟩
    · rw [ht]; rfl
    · rw [joinedBlock]
      dsimp only
      split
      · exact hf.ended B (List.mem_of_getElem? h.second_block)
      · exact hf.ended X (List.mem_of_getElem? hX)
  · obtain ⟨Y, hY, hs⟩ := hsucc hX' s hs
    rw [hlen]
    exact hf.targets Y hY s hs
  · obtain ⟨Y, hY, hs⟩ := hsucc hX' _ hs
    exact hf.entry_free Y hY (hentry ▸ hs)
  · obtain ⟨x, hx⟩ := exists_block? hX'
    rcases h.block?_cases hx with ⟨-, hnil, -⟩ | ⟨-, X, hX, rfl⟩
    · simp [hnil] at hi'
    · have hcopies : ∀ i ∈ (if x = first then B.instructions.map copyOfPhi else []), i.isPhi = false := by
        intro i hi
        split at hi
        · obtain ⟨j, -, rfl⟩ := List.mem_map.mp hi
          exact isPhi_copyOfPhi j
        · exact absurd hi List.not_mem_nil
      have hphi := hf.phi_first X (List.mem_of_getElem? hX)
      rw [joinedBlock] at hi'
      cases hXi : X.instructions with
      | nil =>
        rw [hXi, List.map_nil, List.nil_append] at hi'
        exact hcopies i' (List.mem_of_mem_tail hi')
      | cons j l =>
        rw [hXi, List.map_cons, List.cons_append, List.tail_cons] at hi'
        rcases List.mem_append.mp hi' with hi' | hi'
        · obtain ⟨i, hi, rfl⟩ := List.mem_map.mp hi'
          simpa using hphi i (hXi ▸ hi)
        · exact hcopies i' hi'
  · rcases h.origin (hentry ▸ hX') hi' with ⟨-, ⟨X, i, hX, hi, rfl⟩ | ⟨-, i, -, rfl⟩⟩
    · simpa using hf.phi_entry X hX i hi
    · exact isPhi_copyOfPhi i
  · rcases h.block?_cases hX' with ⟨-, hnil, -⟩ | ⟨-, X, hX, rfl⟩
    · exact ⟨[], [], hnil, by simp, by simp, fun _ => rfl⟩
    · have hbehind : ∀ i' ∈ if x = first then B.instructions.map copyOfPhi else [], i'.isAlloca = false := by
        intro i' hi'
        split at hi'
        · obtain ⟨i, hi, rfl⟩ := List.mem_map.mp hi'
          simpa using hf.isAlloca_outside_entry h.second_block h.not_entry hi
        · exact absurd hi' List.not_mem_nil
      have hfirst := (hf.slotsFirst hX).map fun i => i.isAlloca_mapIncoming (joinedEdges first second B x)
      refine (hfirst.append hbehind).parts fun hx i' hi' => ?_
      rcases List.mem_append.mp hi' with hi' | hi'
      · obtain ⟨i, hi, rfl⟩ := List.mem_map.mp hi'
        simpa using hf.isAlloca_outside_entry hX (hentry ▸ hx) hi
      · exact hbehind i' hi'

/-- Every value of the joined function is there where it is used. -/
theorem Joinable.settled (hf : f.WellFormed I) : (f.join first second).Settled := by
  have hslot : ∀ {r}, (f.join first second).IsSlot r → f.IsSlot r := by
    rintro r ⟨t, ht⟩
    obtain ⟨x, X', hx, hi'⟩ := mem_instructions.mp ht
    rcases h.origin hx hi' with ⟨-, ⟨X, i, hX, hi, he⟩ | ⟨-, i, hi, he⟩⟩
    · refine ⟨t, mem_of_block? hX ?_⟩
      cases i <;> simp_all [Instruction.mapIncoming]
    · refine ⟨t, mem_of_block? h.second_block ?_⟩
      cases i <;> simp_all [copyOfPhi]
  -- The end of the second block is the end of the first one now.
  have hend : ∀ {p P P' r}, f.block? p = some P → (f.join first second).block? p = some P' → p ≠ second →
      f.Holds (.set r) p P.instructions → (f.join first second).Holds (.set r) p P'.instructions := by
    intro p P P' r hP hP' hp hold
    cases (h.block?_other hP hp).symm.trans hP'
    exact (h.holds _ hold).append _
  have hendB : ∀ {P' r}, (f.join first second).block? first = some P' → f.Holds (.set r) second B.instructions →
      (f.join first second).Holds (.set r) first P'.instructions := by
    intro P' r hP' hold
    cases (h.block?_other h.first_block h.ne.symm).symm.trans hP'
    simpa [joinedBlock] using h.holds_second hold
  refine ⟨?_, ?_, ?_⟩
  · intro x X' before' i' after' hX' hl' hphi k hk
    rcases h.block?_cases hX' with ⟨-, hnil, -⟩ | ⟨hx, X, hX, rfl⟩
    · simp [hnil] at hl'
    · have hk' : ∀ {i}, (f.join first second).Needs i k → f.Needs i k := by
        intro i hk
        cases k with
        | set r => exact hk
        | filled r => exact ⟨hslot hk.1, hk.2⟩
      rcases joinedBlock_split hl' with ⟨before, i, after, hl, rfl, rfl⟩ | ⟨rfl, before, i, after, hl, rfl, rfl⟩
      · rw [Instruction.isPhi_mapIncoming] at hphi
        rw [i.mapIncoming_of_not_phi _ hphi] at hk
        exact h.holds _ (hf.settled.at_instruction x X before i after hX hl hphi k (hk' hk))
      · obtain rfl : A = X := Option.some.inj (h.first_block.symm.trans hX)
        cases hi : i.isPhi with
        | false =>
          have hcopy : copyOfPhi i = i := by cases i <;> first | rfl | cases hi
          rw [hcopy] at hk
          exact h.holds_second (hf.settled.at_instruction second B before i after h.second_block hl hi k (hk' hk))
        | true =>
          -- The copy of a phi uses what came over the edge from the first block.
          obtain ⟨dest, type, incoming, rfl⟩ := Instruction.eq_phi hi
          have hmem : .phi dest type incoming ∈ B.instructions := by simp [hl]
          obtain ⟨v, rfl⟩ := h.phi_second hf.shaped hmem
          cases k with
          | set r =>
            have hv : v = .register r := (List.mem_singleton.mp hk).symm
            refine (h.holds _ (hf.settled.at_edge B (List.mem_of_getElem? h.second_block) dest type _ hmem r x A ?_
              h.first_block)).append _
            rw [hv]
            exact List.mem_singleton.mpr rfl
          | filled r => exact absurd hk.2 List.not_mem_nil
  · intro x X' t r hX' ht hr
    rcases h.end_origin hX' ht with ⟨rfl, -⟩ | ⟨hx, Y, hY, ht⟩
    · exact absurd hr List.not_mem_nil
    · have hold := hf.settled.at_end _ Y t r hY ht hr
      by_cases hxf : x = first
      · rw [if_pos hxf] at hY hold
        cases hY.symm.trans h.second_block
        exact hxf ▸ hendB (hxf ▸ hX') hold
      · rw [if_neg hxf] at hY hold
        exact hend hY hX' hx hold
  · intro X' hX' dest type incoming' hi' r p P' hv hP'
    obtain ⟨x, hx⟩ := exists_block? hX'
    obtain ⟨hxs, X, incoming, hX, hi, rfl⟩ := h.phi_origin hx hi'
    have hedge := hf.settled.at_edge X (List.mem_of_getElem? hX) dest type incoming hi r
    have hown : ∀ {q}, (.register r, q) ∈ incoming → q ≠ second → ∀ Q', (f.join first second).block? q = some Q' →
        (f.join first second).Holds (.set r) q Q'.instructions := by
      intro q hq hqs Q' hQ'
      rcases h.block?_cases hQ' with ⟨he, -⟩ | ⟨-, Q, hQ, -⟩
      · exact absurd he hqs
      · exact hend hQ hQ' hqs (hedge q Q hq hQ)
    by_cases hs : x ∈ B.successors
    · rw [joinedEdges_of_mem hs] at hv
      obtain ⟨⟨v, q⟩, hq, he⟩ := List.mem_map.mp hv
      obtain ⟨rfl, rfl⟩ := Prod.mk.inj he
      by_cases hqs : q = second
      · simp only [hqs, if_true] at hP' ⊢
        exact hendB hP' (hedge second B (hqs ▸ hq) h.second_block)
      · simp only [hqs, if_false] at hP' ⊢
        exact hown hq hqs P' hP'
    · rw [joinedEdges_of_not_mem hs, id] at hv
      refine hown hv (fun hps => hs ?_) P' hP'
      obtain ⟨P, hP, hsucc⟩ := ((hf.shaped.phi_edges_of_mem hX hi).2 second).mp (List.mem_map.mpr ⟨_, hps ▸ hv, rfl⟩)
      cases hP.symm.trans h.second_block
      exact hsucc

/-- Joining two blocks keeps a function well formed. -/
theorem Joinable.wellFormed (hf : f.WellFormed I) : (f.join first second).WellFormed I where
  shaped := h.shaped hf.shaped
  settled := h.settled hf
  typed := by
    obtain ⟨γ, hI, hsig, hp, hty, hte⟩ := hf.typed
    have hname : (f.join first second).name = f.name := by rw [h.join_eq]
    have hparams : (f.join first second).params = f.params := by rw [h.join_eq]
    have hret : (f.join first second).ret = f.ret := by rw [h.join_eq]
    refine ⟨γ, hI, by rw [hname, hret]; exact hsig, by rw [hparams]; exact hp, fun i' hi' => ?_, fun X' hX' t ht => ?_⟩
    · obtain ⟨x, X', hx, hi'⟩ := mem_instructions.mp hi'
      rcases h.origin hx hi' with ⟨-, ⟨X, i, hX, hi, rfl⟩ | ⟨-, i, hi, rfl⟩⟩
      · exact (hty i (mem_of_block? hX hi)).mapIncoming exists_of_mem_joinedEdges
      · have hti := hty i (mem_of_block? h.second_block hi)
        cases i with
        | phi dest type incoming =>
          obtain ⟨v, rfl⟩ := h.phi_second hf.shaped hi
          exact ⟨type, hti.1, hti.2 _ (List.mem_singleton.mpr rfl)⟩
        | _ => exact hti
    · obtain ⟨x, hx⟩ := exists_block? hX'
      rw [hret]
      rcases h.end_origin hx ht with ⟨rfl, -⟩ | ⟨-, Y, hY, ht⟩
      · trivial
      · exact hte Y (List.mem_of_getElem? hY) t ht
  no_dead_end x X' hr hX' ht := by
    obtain ⟨hrf, hx⟩ := h.reaches (fun _ _ h => h) id hr
    rcases h.end_origin hX' ht with ⟨-, he⟩ | ⟨-, Y, hY, ht⟩
    · exact hx he
    · refine hf.no_dead_end _ Y ?_ hY ht
      split
      · rename_i hxf
        subst hxf
        exact hrf.edge h.first_block id h.mem_successors
      · exact hrf

end

/-- Joining blocks keeps a function well formed. -/
theorem WellFormed.mergeBlocks (hf : f.WellFormed I) : f.mergeBlocks.2.WellFormed I := by
  have : ∀ fuel (g : Function), g.WellFormed I → (joinWithin fuel g).WellFormed I := by
    intro fuel
    induction fuel with
    | zero => exact fun g hg => hg
    | succ fuel ih =>
      intro g hg
      rw [joinWithin]
      split
      · rename_i first second h
        obtain ⟨A, B, hj⟩ := exists_joinable (fun _ => hg.shaped.block?_id) h
        exact ih _ (hj.wellFormed hg)
      · exact hg
  exact this _ f hf

end Function

end Ember.IR
