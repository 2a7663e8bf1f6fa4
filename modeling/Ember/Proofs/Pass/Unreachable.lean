import Ember.Proofs.Pass.Narrowing
import Mathlib.Algebra.BigOperators.Fin

/-!
# Unreachable blocks

The search for reachable blocks finds exactly those (`mem_reach_iff`): every block that it finds can be entered, and it stops only
when what it found is closed under edges, since the edges that are left to look at bound the steps. The blocks that are kept are
renumbered in their order, and the function stays well formed.
-/

namespace Ember.IR

@[simp] theorem Terminator.operands_mapTargets (t : Terminator) (g : BlockId → BlockId) : (t.mapTargets g).operands = t.operands := by
  cases t <;> rfl

@[simp] theorem Terminator.successors_mapTargets (t : Terminator) (g : BlockId → BlockId) :
    (t.mapTargets g).successors = t.successors.map g := by
  cases t <;> rfl

namespace Function

variable {I : Interface} {f : Function}

/-! ## The search -/

/-- The number of edges that start at blocks not seen yet. -/
def openEdges (f : Function) (seen : List BlockId) : Nat :=
  ∑ b ∈ (Finset.range f.blocks.length).filter (· ∉ seen), ((f.block? b).map (·.successors.length)).getD 0

variable {b n : BlockId} {B : Block} {kept : List Bool}

/-- Seeing a block takes its edges from those that are open. -/
theorem openEdges_cons {seen : List BlockId} (hB : f.block? b = some B) (hb : b ∉ seen) :
    f.openEdges seen = B.successors.length + f.openEdges (b :: seen) := by
  have hlt : b < f.blocks.length := lt_of_block? hB
  have herase : (Finset.range f.blocks.length).filter (· ∉ b :: seen) =
      ((Finset.range f.blocks.length).filter (· ∉ seen)).erase b := by
    ext c
    simp only [Finset.mem_filter, Finset.mem_erase, List.mem_cons, not_or]
    tauto
  have hmem : b ∈ (Finset.range f.blocks.length).filter (· ∉ seen) := by
    simp [hlt, hb]
  rw [openEdges, openEdges, herase, ← Finset.add_sum_erase _ _ hmem, hB]
  rfl

/-- At the start, all edges are open. -/
theorem openEdges_nil (f : Function) : f.openEdges [] = f.blocks.foldr (fun b n => b.successors.length + n) 0 := by
  have hall : (Finset.range f.blocks.length).filter (fun b => b ∉ ([] : List BlockId)) = Finset.range f.blocks.length := by
    simp
  rw [openEdges, hall, Finset.sum_range]
  have : ∀ l : List Block, ∑ b : Fin l.length, (((l[(b : Nat)]?).map (·.successors.length)).getD 0) =
      l.foldr (fun b n => b.successors.length + n) 0 := by
    intro l
    induction l with
    | nil => rfl
    | cons B l ih =>
      rw [List.foldr_cons, ← ih]
      exact Fin.sum_univ_succ _
  exact this f.blocks

/-- What the search finds can be entered. -/
theorem reachable_of_mem_reach {fuel : Nat} {work seen : List BlockId} (hwork : ∀ b ∈ work, f.Reachable b)
    (hseen : ∀ b ∈ seen, f.Reachable b) : ∀ b ∈ f.reach fuel work seen, f.Reachable b := by
  induction fuel generalizing work seen with
  | zero => exact hseen
  | succ fuel ih =>
    cases work with
    | nil => exact hseen
    | cons c work =>
      have hrest : ∀ b ∈ work, f.Reachable b := fun b hb => hwork b (List.mem_cons_of_mem _ hb)
      rw [reach]
      split
      · exact ih hrest hseen
      · rename_i C hC
        split
        · exact ih hrest hseen
        · have hc := hwork c List.mem_cons_self
          refine ih (List.forall_mem_append.mpr ⟨fun b hb => ?_, hrest⟩) (List.forall_mem_cons.mpr ⟨hc, hseen⟩)
          exact hc.edge hC id (List.mem_reverse.mp hb)

/-- What the search finds is closed under edges, if its fuel suffices for the blocks to look at and the open edges. -/
theorem reach_closed (fuel : Nat) (work seen : List BlockId) (hfuel : work.length + f.openEdges seen ≤ fuel)
    (hinv : ∀ b ∈ seen, ∀ B, f.block? b = some B → ∀ s ∈ B.successors, s ∈ seen ∨ s ∈ work ∨ f.block? s = none) :
    (∀ b ∈ seen, b ∈ f.reach fuel work seen) ∧ (∀ b ∈ work, b ∈ f.reach fuel work seen ∨ f.block? b = none) ∧
      ∀ b ∈ f.reach fuel work seen, ∀ B, f.block? b = some B → ∀ s ∈ B.successors,
        s ∈ f.reach fuel work seen ∨ f.block? s = none := by
  induction fuel generalizing work seen with
  | zero =>
    obtain rfl : work = [] := List.eq_nil_of_length_eq_zero (by omega)
    exact ⟨fun _ h => h, nofun, by simpa [reach] using hinv⟩
  | succ fuel ih =>
    cases work with
    | nil => exact ⟨fun _ h => h, nofun, by simpa [reach] using hinv⟩
    | cons c work =>
      rw [List.length_cons] at hfuel
      by_cases hc : c ∈ seen ∨ f.block? c = none
      · -- A block that was seen, or is not there, is passed over.
        have hpass : f.reach (fuel + 1) (c :: work) seen = f.reach fuel work seen := by
          rw [reach]
          rcases hc with hc | hc
          · cases f.block? c <;> simp [hc]
          · rw [hc]
        rw [hpass]
        obtain ⟨h1, h2, h3⟩ := ih work seen (by omega) fun b hb B hB s hs => by
          rcases hinv b hb B hB s hs with h | h | h
          · exact .inl h
          · rcases List.mem_cons.mp h with rfl | h
            · exact hc.imp_right .inr
            · exact .inr (.inl h)
          · exact .inr (.inr h)
        exact ⟨h1, List.forall_mem_cons.mpr ⟨hc.imp_left (h1 c), h2⟩, h3⟩
      · obtain ⟨hc, hne⟩ := not_or.mp hc
        obtain ⟨C, hC⟩ := Option.ne_none_iff_exists'.mp hne
        simp only [reach, hC, List.contains_eq_mem, hc, decide_false, Bool.false_eq_true, if_false]
        rw [openEdges_cons hC hc] at hfuel
        obtain ⟨h1, h2, h3⟩ := ih (C.successors.reverse ++ work) (c :: seen)
            (by rw [List.length_append, List.length_reverse]; omega) fun b hb B hB s hs => by
          rcases List.mem_cons.mp hb with rfl | hb
          · cases hC.symm.trans hB
            exact .inr (.inl (List.mem_append_left _ (List.mem_reverse.mpr hs)))
          · rcases hinv b hb B hB s hs with h | h | h
            · exact .inl (List.mem_cons_of_mem _ h)
            · rcases List.mem_cons.mp h with rfl | h
              · exact .inl List.mem_cons_self
              · exact .inr (.inl (List.mem_append_right _ h))
            · exact .inr (.inr h)
        exact ⟨(List.forall_mem_cons.mp h1).2, List.forall_mem_cons.mpr ⟨.inl (h1 c List.mem_cons_self), (List.forall_mem_append.mp h2).2⟩, h3⟩

/-- The blocks that are marked as reachable are those that can be entered. -/
theorem reachable_iff : f.reachable[b]? = some true ↔ b < f.blocks.length ∧ f.Reachable b := by
  obtain ⟨fuel, hfuel⟩ : ∃ n, n = f.blocks.foldr (fun b n => b.successors.length + n) 0 + 1 := ⟨_, rfl⟩
  have hmark : f.reachable[b]? = some true ↔ b < f.blocks.length ∧ b ∈ f.reach fuel [f.entry] [] := by
    subst hfuel
    by_cases hb : b < f.blocks.length
    · simp [reachable, hb]
    · simp [reachable, hb]
  rw [hmark]
  refine and_congr_right fun hb => ⟨fun h => ?_, fun h => ?_⟩
  · refine reachable_of_mem_reach (fun c hc => ?_) (by simp) b h
    rw [List.mem_singleton.mp hc]
    exact .entry
  · obtain ⟨-, hstart, hclosed⟩ := f.reach_closed fuel [f.entry] []
      (by rw [openEdges_nil, hfuel, List.length_singleton]; omega) nofun
    have hin : ∀ c, f.Reachable c → c ∈ f.reach fuel [f.entry] [] ∨ f.block? c = none := by
      intro c hc
      induction hc with
      | entry => exact hstart _ List.mem_cons_self
      | edge _ hB _ hs ih =>
        rcases ih with ih | ih
        · exact hclosed _ ih _ hB _ hs
        · simp [hB] at ih
    rcases hin b h with h | h
    · exact h
    · exact absurd hb (Nat.not_lt.mpr (List.getElem?_eq_none_iff.mp h))

/-! ## The new numbers -/

@[simp] theorem renumber?_cons_zero (k : Bool) (kept : List Bool) : renumber? (k :: kept) 0 = if k then some 0 else none := by
  cases k <;> rfl

@[simp] theorem renumber?_cons_succ (k : Bool) (kept : List Bool) (b : BlockId) :
    renumber? (k :: kept) (b + 1) = (renumber? kept b).map (· + if k then 1 else 0) := by
  unfold renumber?
  rw [List.getElem?_cons_succ]
  cases kept[b]? with
  | none => rfl
  | some x => cases x <;> cases k <;> simp

/-- A block has a new number if it is kept. -/
theorem renumber?_isSome (h : kept[b]? = some true) : ∃ n, renumber? kept b = some n := by
  simp [renumber?, h]

theorem kept_of_renumber? (h : renumber? kept b = some n) : kept[b]? = some true := by
  unfold renumber? at h
  split at h
  · assumption
  · cases h

/-- No two blocks have the same new number. -/
theorem renumber?_inj {b c n : Nat} (hb : renumber? kept b = some n) (hc : renumber? kept c = some n) : b = c := by
  induction kept generalizing b c n with
  | nil => simp [renumber?] at hb
  | cons k kept ih =>
    have hzero : ∀ {d}, renumber? (k :: kept) 0 = some n → renumber? (k :: kept) (d + 1) ≠ some n := by
      intro d h0 hd
      cases k with
      | false => simp at h0
      | true =>
        simp only [renumber?_cons_zero, if_true, Option.some.injEq] at h0
        simp [← h0] at hd
    cases b with
    | zero =>
      cases c with
      | zero => rfl
      | succ c => exact absurd hc (hzero hb)
    | succ b =>
      cases c with
      | zero => exact absurd hb (hzero hc)
      | succ c =>
        simp only [renumber?_cons_succ, Option.map_eq_some_iff] at hb hc
        obtain ⟨m, hm, hmn⟩ := hb
        obtain ⟨m', hm', hmn'⟩ := hc
        obtain rfl : m = m' := Nat.add_right_cancel (hmn.trans hmn'.symm)
        rw [ih hm hm']

/-- The blocks that are kept stand at their new numbers. -/
theorem getElem?_kept (blocks : List Block) (kept : List Bool) (n : BlockId) (B : Block) :
    (((blocks.zip kept).filter (·.2)).map (·.1))[n]? = some B ↔
      ∃ b, renumber? kept b = some n ∧ blocks[b]? = some B := by
  induction blocks generalizing kept n with
  | nil => simp
  | cons C blocks ih =>
    cases kept with
    | nil => simp [renumber?]
    | cons k kept =>
      have hsplit : (∃ b, renumber? (k :: kept) b = some n ∧ (C :: blocks)[b]? = some B) ↔
          (k = true ∧ n = 0 ∧ C = B) ∨
            ∃ b, ((renumber? kept b).map (· + if k then 1 else 0)) = some n ∧ blocks[b]? = some B := by
        constructor
        · rintro ⟨b, hb, hB⟩
          cases b with
          | zero => cases k <;> simp_all
          | succ b => exact .inr ⟨b, by simpa using hb, by simpa using hB⟩
        · rintro (⟨rfl, rfl, rfl⟩ | ⟨b, hb, hB⟩)
          · exact ⟨0, by simp⟩
          · exact ⟨b + 1, by simpa using hb, by simpa using hB⟩
      rw [hsplit]
      cases k with
      | false => simpa using ih kept n
      | true =>
        cases n with
        | zero => simp
        | succ n => simpa using ih kept n

/-- The number that a block had before. -/
def place (kept : List Bool) (n : BlockId) : BlockId :=
  ((List.range kept.length).find? fun b => renumber? kept b = some n).getD 0

theorem place_eq (h : renumber? kept b = some n) : place kept n = b := by
  have hlt : b < kept.length := (List.getElem?_eq_some_iff.mp (kept_of_renumber? h)).1
  unfold place
  cases hfind : (List.range kept.length).find? fun b => renumber? kept b = some n with
  | none =>
    rw [List.find?_eq_none] at hfind
    exact absurd (by simpa using h) (hfind b (List.mem_range.mpr hlt))
  | some c => exact renumber?_inj (by simpa using List.find?_some hfind) h

/-! ## Removal -/

theorem successors_renumberBlock (kept : List Bool) (n : BlockId) (B : Block) :
    (renumberBlock kept n B).successors = B.successors.map fun s => (renumber? kept s).getD s := by
  cases ht : B.terminator <;> simp [renumberBlock, Block.successors, ht]

/-- A renumbered block has fewer edges in, if the blocks that it leads to are kept. -/
theorem narrowed_renumberBlock (hs : ∀ s ∈ B.successors, kept[s]? = some true) (n : BlockId) :
    B.Narrowed (place kept) (renumberBlock kept n B) := by
  refine ⟨rfl, ⟨_, rfl, ?_⟩, ?_, ?_⟩
  · intro incoming v p h
    obtain ⟨⟨w, q⟩, he, hq⟩ := List.mem_filterMap.mp h
    obtain ⟨n, hn, hq⟩ := Option.map_eq_some_iff.mp hq
    cases hq
    exact place_eq hn ▸ he
  · intro t' ht'
    obtain ⟨t, ht, rfl⟩ := Option.map_eq_some_iff.mp ht'
    have hplace : ∀ s ∈ t.successors, place kept ((renumber? kept s).getD s) = s := by
      intro s hst
      obtain ⟨n, hn⟩ := renumber?_isSome (hs s (by simpa [Block.successors, ht] using hst))
      rw [hn, Option.getD_some, place_eq hn]
    refine ⟨t, ht, ⟨fun s h => ?_, fun v h => by simpa using h, fun h => ?_, fun γ ret h => ?_⟩⟩
    · rw [Terminator.successors_mapTargets] at h
      obtain ⟨q, hq, rfl⟩ := List.mem_map.mp h
      rwa [hplace q hq]
    · cases t <;> first | rfl | cases h
    · cases t <;> exact h
  · simp [renumberBlock]

/-- What holds in a block that can be entered is given by some instruction: before the place in the block, or in a block that
can be entered. -/
theorem Holds.exists_gives {k : Fact} {before : List Instruction} (h : f.Holds k b before) (hb : f.Reachable b) :
    (∃ i ∈ before, i.Gives k) ∨ ∃ p P, f.Reachable p ∧ f.block? p = some P ∧ P.Gives k := by
  rcases h with h | h
  · exact .inl h
  · by_contra hno
    rw [not_or] at hno
    refine h ?_
    clear h
    induction hb with
    | entry => exact .entry
    | @edge p s P hp hP _ hs ih => exact ih.edge hP (fun hg => hno.2 ⟨p, P, hp, hP, hg⟩) hs

/-- A function with the blocks that can be entered only. -/
def keepReachable (f : Function) : Function :=
  { f with
    blocks := (((f.blocks.zip f.reachable).filter (·.2)).map (·.1)).mapIdx (renumberBlock f.reachable)
    entry := (renumber? f.reachable f.entry).getD 0 }

theorem removeUnreachable_eq (f : Function) : f.removeUnreachable.2 = if f.reachable.all id then f else f.keepReachable := by
  unfold removeUnreachable keepReachable
  dsimp only
  split <;> rfl

/-- The blocks that are left are those that can be entered. -/
theorem block?_keepReachable {B' : Block} : f.keepReachable.block? n = some B' ↔
      ∃ b B, renumber? f.reachable b = some n ∧ f.Reachable b ∧ f.block? b = some B ∧ B' = renumberBlock f.reachable n B := by
  rw [block?, keepReachable, List.getElem?_mapIdx, Option.map_eq_some_iff]
  simp only [getElem?_kept]
  constructor
  · rintro ⟨B, ⟨b, hb, hB⟩, rfl⟩
    exact ⟨b, B, hb, (reachable_iff.mp (kept_of_renumber? hb)).2, hB, rfl⟩
  · rintro ⟨b, B, hb, -, hB, rfl⟩
    exact ⟨B, ⟨b, hb, hB⟩, rfl⟩

/-- A block that can be entered is left, at its new number. -/
theorem exists_block?_keepReachable (hr : f.Reachable b) (hB : f.block? b = some B) :
    ∃ n, renumber? f.reachable b = some n ∧ f.keepReachable.block? n = some (renumberBlock f.reachable n B) := by
  obtain ⟨n, hn⟩ := renumber?_isSome (reachable_iff.mpr ⟨lt_of_block? hB, hr⟩)
  exact ⟨n, hn, block?_keepReachable.mpr ⟨b, B, hn, hr, hB, rfl⟩⟩

/-- The blocks behind a block that can be entered are kept. -/
theorem Shaped.kept_successor (hf : f.Shaped) (hr : f.Reachable b) (hB : f.block? b = some B) :
    ∀ s ∈ B.successors, f.reachable[s]? = some true :=
  fun s hs => reachable_iff.mpr ⟨hf.targets B (List.mem_of_getElem? hB) s hs, hr.edge hB id hs⟩

/-- The entry is left. -/
theorem Shaped.renumber?_entry (hf : f.Shaped) : renumber? f.reachable f.entry = some f.keepReachable.entry := by
  obtain ⟨n, hn⟩ := renumber?_isSome (reachable_iff.mpr ⟨hf.entry_lt, .entry⟩)
  rw [hn, keepReachable, hn, Option.getD_some]

/-- Keeping the blocks that can be entered leaves out blocks and their edges. -/
theorem Shaped.narrowed_keepReachable (hf : f.Shaped) : f.Narrowed (place f.reachable) f.keepReachable := by
  have hlen : f.blocks.length = f.reachable.length := by simp [reachable]
  have hback : ∀ {n B'}, f.keepReachable.block? n = some B' →
      ∃ B, f.block? (place f.reachable n) = some B ∧ B.Narrowed (place f.reachable) B' := by
    intro n B' hB'
    obtain ⟨b, B, hn, hr, hB, rfl⟩ := block?_keepReachable.mp hB'
    exact ⟨B, place_eq hn ▸ hB, narrowed_renumberBlock (hf.kept_successor hr hB) n⟩
  refine ⟨rfl, rfl, rfl, rfl, ?_, ?_, ?_, fun b B' => hback, ?_, ?_⟩
  · intro n B' hB'
    obtain ⟨b, B, -, -, -, rfl⟩ := block?_keepReachable.mp hB'
    rfl
  · obtain ⟨n, hn, hB⟩ := exists_block?_keepReachable .entry (List.getElem?_eq_getElem hf.entry_lt)
    rw [hf.renumber?_entry] at hn
    cases hn
    exact lt_of_block? hB
  · intro n hlt
    obtain ⟨b, B, hn, -⟩ := block?_keepReachable.mp (List.getElem?_eq_getElem hlt)
    rw [place_eq hn]
    constructor
    · rintro rfl
      exact Option.some.inj (hn.symm.trans hf.renumber?_entry)
    · rintro rfl
      exact renumber?_inj hn hf.renumber?_entry
  · intro B' hB' s hs
    obtain ⟨n, hn⟩ := exists_block? hB'
    obtain ⟨b, B, -, hr, hB, rfl⟩ := block?_keepReachable.mp hn
    rw [successors_renumberBlock] at hs
    obtain ⟨q, hq, rfl⟩ := List.mem_map.mp hs
    obtain ⟨hlt, hrq⟩ := reachable_iff.mp (hf.kept_successor hr hB q hq)
    obtain ⟨m, hm, hQ⟩ := exists_block?_keepReachable hrq (List.getElem?_eq_getElem hlt)
    rw [hm, Option.getD_some]
    exact lt_of_block? hQ
  · refine ⟨((f.blocks.zip f.reachable).filter (·.2)).map (·.1), ?_, ?_⟩
    · have hfst : (f.blocks.zip f.reachable).map (·.1) = f.blocks := List.map_fst_zip (by rw [hlen])
      have hsub := (List.filter_sublist (p := (·.2)) (l := f.blocks.zip f.reachable)).map (·.1)
      rwa [hfst] at hsub
    · refine List.forall₂_iff_get.mpr ⟨by simp [keepReachable], fun n hn hn' => ?_⟩
      obtain ⟨b, hb, hB⟩ := (getElem?_kept _ _ _ _).mp (List.getElem?_eq_getElem hn)
      simp only [keepReachable, List.get_eq_getElem, List.getElem_mapIdx]
      exact narrowed_renumberBlock (hf.kept_successor (reachable_iff.mp (kept_of_renumber? hb)).2 hB) n

/-- What a block that can be entered uses is defined in a block that can be entered. -/
theorem WellFormed.defined_keepReachable (hf : f.WellFormed I) {r : Register}
    (hr : .register r ∈ f.keepReachable.operands) : ∃ i ∈ f.keepReachable.instructions, i.dest? = some r := by
  -- Some place that can be entered needs the register.
  obtain ⟨p, P, before, hp, hP, hsub, hold⟩ : ∃ p P before, f.Reachable p ∧ f.block? p = some P ∧
      (∀ i ∈ before, i ∈ P.instructions) ∧ f.Holds (.set r) p before := by
    rcases operands_cases hr with ⟨n, B', i', hB', hi', hr⟩ | ⟨n, B', t', hB', ht', hr⟩
    · obtain ⟨b, B, -, hb, hB, rfl⟩ := block?_keepReachable.mp hB'
      obtain ⟨i, hi, rfl⟩ := List.mem_map.mp hi'
      cases hphi : i.isPhi with
      | false =>
        rw [i.mapIncoming_of_not_phi _ hphi] at hr
        obtain ⟨before, after, hl⟩ := List.append_of_mem hi
        exact ⟨b, B, before, hb, hB, fun j hj => by simp [hl, hj], hf.settled.at_instruction b B before i after hB hl hphi
          (.set r) hr⟩
      | true =>
        obtain ⟨dest, type, incoming, rfl⟩ := Instruction.eq_phi hphi
        obtain ⟨⟨v, q'⟩, he', rfl⟩ := List.mem_map.mp hr
        obtain ⟨⟨w, q⟩, he, hq⟩ := List.mem_filterMap.mp he'
        obtain ⟨m, hm, hq⟩ := Option.map_eq_some_iff.mp hq
        cases hq
        obtain ⟨hlt, hrq⟩ := reachable_iff.mp (kept_of_renumber? hm)
        have hQ : f.block? q = some f.blocks[q] := List.getElem?_eq_getElem hlt
        exact ⟨q, _, _, hrq, hQ, fun _ h => h,
          hf.settled.at_edge B (List.mem_of_getElem? hB) dest type incoming hi r q _ he hQ⟩
    · obtain ⟨b, B, -, hb, hB, rfl⟩ := block?_keepReachable.mp hB'
      obtain ⟨t, ht, rfl⟩ := Option.map_eq_some_iff.mp ht'
      rw [Terminator.operands_mapTargets] at hr
      exact ⟨b, B, _, hb, hB, fun _ h => h, hf.settled.at_end b B t r hB ht hr⟩
  obtain ⟨q, Q, hq, hQ, i, hi, hg⟩ : ∃ q Q, f.Reachable q ∧ f.block? q = some Q ∧ Q.Gives (.set r) := by
    rcases hold.exists_gives hp with ⟨i, hi, hg⟩ | h
    · exact ⟨p, P, hp, hP, i, hsub i hi, hg⟩
    · exact h
  obtain ⟨m, -, hQ'⟩ := exists_block?_keepReachable hq hQ
  exact ⟨_, mem_of_block? hQ' (List.mem_map.mpr ⟨i, hi, rfl⟩), (i.dest?_mapIncoming _).trans hg⟩

/-- The phis of the blocks that are left follow the flow. -/
theorem WellFormed.phi_edges_keepReachable (hf : f.WellFormed I) {B' : Block} {dest : Register} {type : Ty}
    {incoming' : List (Value × BlockId)} {rest' : List Instruction} (hB' : f.keepReachable.block? n = some B')
    (hl' : B'.instructions = .phi dest type incoming' :: rest') :
    (incoming'.map (·.2)).Nodup ∧ ∀ p, p ∈ incoming'.map (·.2) ↔ f.keepReachable.Precedes p n := by
  obtain ⟨b, B, hnum, hb, hB, rfl⟩ := block?_keepReachable.mp hB'
  obtain ⟨incoming, rest, hl, hin⟩ : ∃ incoming rest, B.instructions = .phi dest type incoming :: rest ∧
      incoming'.map (·.2) = (incoming.map (·.2)).filterMap (renumber? f.reachable) := by
    obtain ⟨i, rest, hl, he, -⟩ := List.map_eq_cons_iff.mp hl'
    obtain ⟨incoming, rfl, rfl⟩ := Instruction.mapIncoming_eq_phi he
    refine ⟨incoming, rest, hl, ?_⟩
    rw [List.map_filterMap, List.filterMap_map]
    refine List.filterMap_congr fun e _ => ?_
    cases h : renumber? f.reachable e.2 <;> simp [h]
  obtain ⟨hnodup, hedges⟩ := hf.shaped.phi_edges b B dest type incoming rest hB hl
  rw [hin]
  refine ⟨hnodup.filterMap fun p q m hp hq => renumber?_inj hp hq, fun p' => ?_⟩
  rw [List.mem_filterMap]
  constructor
  · rintro ⟨p, hp, hnum'⟩
    obtain ⟨P, hP, hs⟩ := (hedges p).mp hp
    obtain ⟨m, hm, hP'⟩ := exists_block?_keepReachable (reachable_iff.mp (kept_of_renumber? hnum')).2 hP
    cases hm.symm.trans hnum'
    refine ⟨_, hP', ?_⟩
    rw [successors_renumberBlock]
    exact List.mem_map.mpr ⟨b, hs, by rw [hnum, Option.getD_some]⟩
  · rintro ⟨P', hP', hs⟩
    obtain ⟨p, P, hp, hr, hP, rfl⟩ := block?_keepReachable.mp hP'
    have := (narrowed_renumberBlock (hf.shaped.kept_successor hr hP) _).successors hs
    rw [place_eq hnum] at this
    exact ⟨p, (hedges p).mpr ⟨P, hP, this⟩, hp⟩

/-- Removing unreachable blocks keeps a function well formed. -/
theorem WellFormed.removeUnreachable (hf : f.WellFormed I) : f.removeUnreachable.2.WellFormed I := by
  rw [removeUnreachable_eq]
  split
  · exact hf
  · exact hf.shaped.narrowed_keepReachable.wellFormed (fun _ => hf.defined_keepReachable)
      (fun _ _ _ _ _ _ => hf.phi_edges_keepReachable) hf

end Function

end Ember.IR
