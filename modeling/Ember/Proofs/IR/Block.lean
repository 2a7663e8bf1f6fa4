import Ember.Proofs.IR.Path
import Mathlib.Data.List.Nodup
import Mathlib.Data.List.Perm.Subperm
import Std.Data.String.ToNat

/-!
# Blocks and labels

What the blocks of a function are after one of them was changed or one was added. A new label is free: among one more numbered labels
than there are labels taken, one is not taken.
-/

namespace Ember.IR.Function

variable {f : Function}

theorem block?_modifyBlock (f : Function) (id : BlockId) (change : Block → Block) (x : BlockId) :
    (f.modifyBlock id change).block? x = (f.block? x).map fun B => if id = x then change B else B := by
  simp only [modifyBlock, block?, List.getElem?_modify]
  rfl

/-- Changing blocks one after the other changes every block by those changes that are meant for it. -/
theorem foldl_modifyBlock {α : Type} (target : α → BlockId) (change : α → Block → Block) (l : List α) (f : Function) :
    l.foldl (fun f a => f.modifyBlock (target a) (change a)) f = { f with
      blocks := f.blocks.mapIdx fun b B => l.foldl (fun B a => if target a = b then change a B else B) B } := by
  induction l generalizing f with
  | nil =>
    have : (f.blocks.mapIdx fun _ B => B) = f.blocks := List.ext_getElem? fun b => by simp
    simp [this]
  | cons a l ih =>
    rw [List.foldl_cons, ih]
    simp only [modifyBlock, Function.mk.injEq, true_and, and_true]
    refine List.ext_getElem? fun b => ?_
    simp only [List.getElem?_mapIdx, List.getElem?_modify, List.foldl_cons]
    cases f.blocks[b]? <;> rfl

/-- The blocks after the block that is at `c` was changed. -/
theorem block?_modifyBlock_at {c : BlockId} {C : Block} (hC : f.block? c = some C) (change : Block → Block) (b : BlockId) :
    (f.modifyBlock c change).block? b = if b = c then some (change C) else f.block? b := by
  rw [block?_modifyBlock]
  by_cases hb : b = c
  · rw [if_pos hb, hb, hC, Option.map_some, if_pos rfl]
  · rw [if_neg hb]
    simp [Ne.symm hb]

/-- Labels are told by the blocks. -/
theorem labels_eq {g : Function} (h : ∀ x, (g.block? x).map (·.label) = (f.block? x).map (·.label)) : g.labels = f.labels :=
  List.ext_getElem? fun x => by rw [labels, labels, List.getElem?_map, List.getElem?_map]; exact h x

/-- Instructions are told by the blocks. -/
theorem instructions_eq {g : Function} (h : ∀ x, (g.block? x).map (·.instructions) = (f.block? x).map (·.instructions)) :
    g.instructions = f.instructions := by
  have hmap : g.blocks.map (·.instructions) = f.blocks.map (·.instructions) :=
    List.ext_getElem? fun x => by rw [List.getElem?_map, List.getElem?_map]; exact h x
  rw [instructions, instructions, List.flatMap_def, List.flatMap_def, hmap]

theorem labels_modifyBlock (f : Function) (id : BlockId) {change : Block → Block} (h : ∀ B, (change B).label = B.label) :
    (f.modifyBlock id change).labels = f.labels := by
  refine labels_eq fun x => ?_
  rw [block?_modifyBlock]
  cases f.block? x with
  | none => rfl
  | some B =>
    by_cases hx : id = x
    · simp [hx, h B]
    · simp [hx]

/-- Placing instructions behind the allocas. -/
theorem instructions_insertAfterAllocas (b : Block) (added : List Instruction) : (b.insertAfterAllocas added).instructions =
      b.instructions.takeWhile (·.isAlloca) ++ added ++ b.instructions.dropWhile (·.isAlloca) := by
  have : ∀ l : List Instruction, l.drop (l.takeWhile (·.isAlloca)).length = l.dropWhile (·.isAlloca) := by
    intro l
    induction l with
    | nil => rfl
    | cons i l ih => cases hi : i.isAlloca <;> simp [hi, ih]
  simp [Block.insertAfterAllocas, this]

/-- A place of a row into which others were put is one of them, or a place of the row. -/
theorem split_inserted {A S B before' after' : List Instruction} {i : Instruction} (hl : A ++ S ++ B = before' ++ i :: after') :
    i ∈ S ∨ ∃ before after, A ++ B = before ++ i :: after ∧ ∀ j ∈ before, j ∈ before' := by
  rw [List.append_assoc] at hl
  rcases List.append_eq_append_iff.mp hl with ⟨l, rfl, hS⟩ | ⟨l, rfl, hS⟩
  · rcases List.append_eq_append_iff.mp hS with ⟨l', rfl, hB⟩ | ⟨l', rfl, hB⟩
    · exact .inr ⟨A ++ l', after', by rw [hB, List.append_assoc], fun j hj => by
        rcases List.mem_append.mp hj with hj | hj <;> simp [hj]⟩
    · cases l' with
      | nil => exact .inr ⟨A, after', by simpa using hB.symm, fun j hj => List.mem_append_left _ hj⟩
      | cons j l' =>
        rw [List.cons_append, List.cons.injEq] at hB
        exact .inl (by simp [hB.1])
  · cases l with
    | nil =>
      rw [List.nil_append] at hS
      cases S with
      | nil => exact .inr ⟨before', after', by simp [hS], fun j hj => hj⟩
      | cons j S =>
        rw [List.cons_append, List.cons.injEq] at hS
        exact .inl (by simp [hS.1])
    | cons j l =>
      rw [List.cons_append, List.cons.injEq] at hS
      obtain ⟨rfl, rfl⟩ := hS
      exact .inr ⟨before', l ++ B, by simp, fun j hj => hj⟩

theorem block?_addBlock (f : Function) (label : String) (x : BlockId) : (f.addBlock label).2.block? x =
    if x = f.blocks.length then some { id := x, label := freeLabel f.labels label } else f.block? x := by
  simp only [addBlock, block?]
  split
  · rename_i hx
    simp [hx]
  · rename_i hx
    rcases Nat.lt_or_gt_of_ne hx with hlt | hgt
    · rw [List.getElem?_append_left hlt]
    · rw [List.getElem?_eq_none (by simpa using Nat.succ_le_of_lt hgt), List.getElem?_eq_none (Nat.le_of_lt hgt)]

/-- Changing one block adds to the instructions of the function what it adds to those of the block. -/
theorem instructions_modifyBlock_perm {id : BlockId} {B : Block} {change : Block → Block} (added : List Instruction)
    (hB : f.block? id = some B) (h : (change B).instructions.Perm (added ++ B.instructions)) :
    (f.modifyBlock id change).instructions.Perm (added ++ f.instructions) := by
  simp only [instructions, modifyBlock, block?] at hB ⊢
  generalize f.blocks = blocks at hB ⊢
  induction blocks generalizing id with
  | nil => cases hB
  | cons A blocks ih =>
    cases id with
    | zero =>
      obtain rfl : A = B := Option.some.inj hB
      simpa using h.append_right _
    | succ id =>
      simp only [List.modify_succ_cons, List.flatMap_cons]
      exact ((ih hB).append_left _).trans (List.perm_append_comm_assoc _ _ _)

theorem insertAfterAllocas_perm (b : Block) (added : List Instruction) :
    (b.insertAfterAllocas added).instructions.Perm (added ++ b.instructions) := by
  rw [instructions_insertAfterAllocas, List.append_assoc]
  refine (List.perm_append_comm_assoc _ _ _).trans (List.Perm.append_left _ ?_)
  rw [List.takeWhile_append_dropWhile]

/-! ## Labels -/

/-- If the numbered label that is found is taken, so are all that were tried. -/
theorem taken_of_numberedLabel_mem {taken : List String} {base : String} {fuel n : Nat}
    (h : numberedLabel taken base fuel n ∈ taken) : ∀ k ≤ fuel, base ++ "." ++ toString (n + k) ∈ taken := by
  induction fuel generalizing n with
  | zero =>
    intro k hk
    rw [Nat.le_zero.mp hk]
    exact h
  | succ fuel ih =>
    rw [numberedLabel] at h
    split at h
    · rename_i hn
      intro k hk
      cases k with
      | zero => exact List.contains_iff_mem.mp hn
      | succ k => simpa [Nat.add_assoc, Nat.add_comm 1 k] using ih h k (Nat.le_of_succ_le_succ hk)
    · rename_i hn
      exact absurd (List.contains_iff_mem.mpr h) hn

/-- A new label is not taken. -/
theorem freeLabel_not_mem (taken : List String) (base : String) : freeLabel taken base ∉ taken := by
  unfold freeLabel
  split
  · intro hmem
    have hall := taken_of_numberedLabel_mem hmem
    let tried := (List.range (taken.length + 1)).map fun k => base ++ "." ++ toString (1 + k)
    have hinj : ∀ a b : Nat, base ++ "." ++ toString (1 + a) = base ++ "." ++ toString (1 + b) → a = b := by
      intro a b h
      have := Nat.repr_injective ((String.append_right_inj _).mp h)
      omega
    have hnodup : tried.Nodup := List.nodup_range.map fun a b h => hinj a b h
    have hsub : tried ⊆ taken := by
      intro s hs
      obtain ⟨k, hk, rfl⟩ := List.mem_map.mp hs
      exact hall k (Nat.lt_succ_iff.mp (List.mem_range.mp hk))
    have hlen := (hnodup.subperm hsub).length_le
    rw [List.length_map, List.length_range] at hlen
    omega
  · rename_i h
    exact fun hmem => h (List.contains_iff_mem.mpr hmem)

/-- Adding a block keeps labels apart. -/
theorem labels_addBlock_nodup (h : f.labels.Nodup) (label : String) : (f.addBlock label).2.labels.Nodup := by
  have : (f.addBlock label).2.labels = f.labels ++ [freeLabel f.labels label] := by simp [addBlock, labels]
  rw [this, List.nodup_append]
  refine ⟨h, List.nodup_singleton _, fun a ha b hb => ?_⟩
  rw [List.mem_singleton.mp hb]
  exact fun he => freeLabel_not_mem f.labels label (he ▸ ha)

end Ember.IR.Function
