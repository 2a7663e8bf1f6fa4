import Ember.Pass.Slot
import Ember.Proofs.Pass.Recast
import Mathlib.Data.List.Induction

/-!
# Store forwarding

Forwarding puts a copy of a value in the place of a load, where the value is the one last stored or loaded before in the same
block, or the only one that is ever stored, at the start of the function. Either way the value is there at the load, so the
function stays well formed.
-/

namespace Ember.IR

namespace Function

variable {I : Interface} {f : Function} {γ : Grading}

variable {i : Instruction} {b : BlockId} {before after : List Instruction} {slot : Register} {v : Value} {slots : Registers} {B : Block}
  {known : Contents}

/-- An instruction stands at one place only. -/
theorem Shaped.place_unique (h : f.Shaped) {p q : BlockId} {P Q : Block} (hP : f.block? p = some P) (hQ : f.block? q = some Q)
    {pre post pre' post' : List Instruction} {j : Instruction} (hl : P.instructions = pre ++ i :: post)
    (hl' : Q.instructions = pre' ++ j :: post') {r : Register} (hi : i.dest? = some r) (hj : j.dest? = some r) :
    p = q ∧ pre = pre' ∧ i = j := by
  obtain ⟨rfl, rfl⟩ := h.unique hP hQ (by simp [hl]) (by simp [hl']) hi hj
  obtain rfl : P = Q := Option.some.inj (hP.symm.trans hQ)
  -- What stands before the instruction is what sets another register.
  have hpre : ∀ {pre post : List Instruction}, P.instructions = pre ++ i :: post → P.instructions.takeWhile (·.dest? ≠ some r) = pre := by
    intro pre post hl
    have hn := h.once_block (List.mem_of_getElem? hP)
    rw [hl, List.filterMap_append, List.filterMap_cons_some hi] at hn
    rw [hl, List.takeWhile_append_of_pos fun k hk => ?_, List.takeWhile_cons_of_neg (by simp [hi]), List.append_nil]
    exact decide_eq_true fun hr => (List.disjoint_of_nodup_append hn) (List.mem_filterMap.mpr ⟨k, hk, hr⟩) List.mem_cons_self
  exact ⟨rfl, (hpre hl).symm.trans (hpre hl'), rfl⟩

/-- The value is there at a place, as a value of the cell of a slot. -/
structure Carries (f : Function) (γ : Grading) (b : BlockId) (before : List Instruction) (slot : Register) (v : Value) :
    Prop where
  typed : ∃ t, γ.register slot = .address t ∧ γ.Has v (.datum t)
  defined : ∀ r, v = .register r → ∃ j ∈ f.instructions, j.dest? = some r
  holds : ∀ r, v = .register r → f.Holds (.set r) b before

theorem Carries.append (h : f.Carries γ b before slot v) (more : List Instruction) : f.Carries γ b (before ++ more) slot v :=
  ⟨h.typed, h.defined, fun r hr => (h.holds r hr).append more⟩

/-- An instruction stays, or a load becomes a copy of a value that is there. -/
def Forwarded (f : Function) (γ : Grading) (i i' : Instruction) : Prop :=
  i' = i ∨ ∃ dest slot type v, i = .load dest (.register slot) type ∧ i' = .assign dest v ∧
    ∃ b B before after, f.block? b = some B ∧ B.instructions = before ++ i :: after ∧ f.Carries γ b before slot v

/-- Turning loads into copies of what is there keeps a function well formed. -/
theorem WellFormed.forwarded {f' : Function} (hf : f.WellFormed I) (hI : γ.interface = I)
    (hsig : I.signature? f.name = some (γ.params, f.ret)) (hp : γ.params.length = f.params.length)
    (hty : ∀ i ∈ f.instructions, γ.Types i) (hte : ∀ B ∈ f.blocks, ∀ t, B.terminator = some t → γ.TypesEnd f.ret t)
    (h : f.Recast (f.Forwarded γ) (fun _ => False) f')
    (hend : ∀ b B B', f.block? b = some B → f'.block? b = some B' → B'.terminator = B.terminator) : f'.WellFormed I := by
  have himage : ∀ r, (∃ i ∈ f.instructions, i.dest? = some r) → ∃ i ∈ f'.instructions, i.dest? = some r := by
    rintro r ⟨i, hi, hr⟩
    rcases h.image_instruction hi with hd | ⟨i', hi', hc⟩
    · exact hd.elim
    · exact ⟨i', hi', (h.stands i i' hc).dest.trans hr⟩
  refine ⟨h.shaped hf.shaped fun r hr => himage r ?_, h.settled (fun _ _ h => h.elim) ?_ ?_ ?_, ?_, ?_⟩
  · rcases operands_cases hr with ⟨b, B', i', hb', hi', hr⟩ | ⟨b, B', t, hb', ht, hr⟩
    · obtain ⟨B, hB, hBr⟩ := h.origin hb'
      obtain ⟨i, hi, rfl | ⟨dest, slot, type, v, rfl, rfl, b, B, before, after, -, -, hav⟩⟩ := hBr.thinned.origin hi'
      · exact hf.shaped.defined r (mem_operands (mem_of_block? hB hi) hr)
      · exact hav.defined r (List.mem_singleton.mp hr).symm
    · obtain ⟨B, hB, -⟩ := h.origin hb'
      exact hf.shaped.defined r (mem_operands_end hB ((hend b B B' hB hb').symm.trans ht) hr)
  · intro b B B' before i after before' i' after' hB _ hl _ hc _ hphi k hk
    rcases hc with rfl | ⟨dest, slot, type, v, rfl, rfl, p, P, pre, post, hP, hl', hav⟩
    · refine hf.settled.at_instruction b B before i' after hB hl hphi k ?_
      cases k with
      | set r => exact hk
      | filled r => exact ⟨h.isSlot hk.1, hk.2⟩
    · obtain ⟨rfl, rfl, -⟩ := hf.shaped.place_unique hB hP hl hl' rfl rfl
      cases k with
      | set r => exact hav.holds r (List.mem_singleton.mp hk).symm
      | filled r => exact absurd hk.2 List.not_mem_nil
  · intro b B B' t' r hB hB' ht hr
    exact hf.settled.at_end b B t' r hB ((hend b B B' hB hB').symm.trans ht) hr
  · intro dest type incoming hmem r p P hv hP
    obtain ⟨i, hi, rfl | ⟨_, _, _, _, -, he, -⟩⟩ := h.origin_instruction hmem
    · obtain ⟨B, hB, hiB⟩ := List.mem_flatMap.mp hi
      exact hf.settled.at_edge B hB dest type incoming hiB r p P hv hP
    · exact absurd he (by simp)
  · refine ⟨γ, hI, h.name ▸ h.ret ▸ hsig, h.params ▸ hp, fun i' hi' => ?_, fun B' hB' t ht => ?_⟩
    · obtain ⟨i, hi, rfl | ⟨dest, slot, type, v, rfl, rfl, b, B, before, after, -, -, hav⟩⟩ := h.origin_instruction hi'
      · exact hty i' hi
      · obtain ⟨hd, hs⟩ := hty _ hi
        obtain ⟨t, hs', hv⟩ := hav.typed
        obtain rfl : type = t := Grade.address.inj ((Grading.reads_register.mp hs).symm.trans hs')
        exact ⟨type, hd, hv⟩
    · obtain ⟨b, hb'⟩ := exists_block? hB'
      obtain ⟨B, hB, -⟩ := h.origin hb'
      rw [h.ret]
      exact hte B (List.mem_of_getElem? hB) t ((hend b B B' hB hb').symm.trans ht)
  · intro b B' hr hB' ht
    obtain ⟨B, hB, -⟩ := h.origin hB'
    exact hf.no_dead_end b B (h.reachable hr) hB ((hend b B B' hB hB').symm.trans ht)

/-- What comes in the place of an instruction stands for it. -/
theorem Forwarded.stands {i' : Instruction} (h : f.Forwarded γ i i') : i.Stands i' := by
  rcases h with rfl | ⟨dest, slot, type, v, rfl, rfl, -⟩
  · exact .refl i'
  · exact .assign v rfl rfl rfl

/-! ## Inside a block -/

/-- The slot of a pointer is the pointer. -/
theorem eq_of_slotIn? {pointer : Value} (h : pointer.slotIn? slots = some slot) : pointer = .register slot ∧ slot ∈ slots := by
  cases pointer with
  | register r =>
    simp only [Value.slotIn?] at h
    split at h
    · rename_i hr
      cases h
      exact ⟨rfl, Std.TreeSet.contains_iff_mem.mp hr⟩
    · cases h
  | _ => cases h

/-- A copy comes in the place of a load from a slot whose value is known. -/
theorem loadCopy?_eq_some {value : Register → Option Value} {i' : Instruction} (h : loadCopy? slots value i = some i') : ∃ dest slot type v,
      i = .load dest (.register slot) type ∧ i' = .assign dest v ∧ slot ∈ slots ∧ value slot = some v := by
  cases i with
  | load dest pointer type =>
    obtain ⟨slot, hs, hc⟩ := Option.bind_eq_some_iff.mp h
    obtain ⟨v, hv, rfl⟩ := Option.map_eq_some_iff.mp hc
    obtain ⟨rfl, hslot⟩ := eq_of_slotIn? hs
    exact ⟨dest, slot, type, v, rfl, rfl, hslot, hv⟩
  | _ => cases h

/-- A stored value is there behind the store. -/
theorem WellFormed.available_stored (hf : f.WellFormed I) (hty : ∀ i ∈ f.instructions, γ.Types i) {type : Ty} (hB : f.block? b = some B)
    (hl : B.instructions = before ++ .store (.register slot) v type :: after) :
    f.Carries γ b (before ++ [.store (.register slot) v type]) slot v := by
  have hi : .store (.register slot) v type ∈ f.instructions :=
    mem_of_block? hB (by simp [hl])
  refine ⟨⟨type, hty _ hi⟩, ?_, ?_⟩
  · rintro r rfl
    exact hf.shaped.defined r (mem_operands hi (by simp [Instruction.operands]))
  · rintro r rfl
    refine (hf.settled.at_instruction b B before _ after hB hl rfl (.set r) ?_).append _
    simp [Needs, Instruction.operands]

/-- A loaded value is there behind the load. -/
theorem WellFormed.available_loaded (hty : ∀ i ∈ f.instructions, γ.Types i) {dest : Register} {type : Ty} (hB : f.block? b = some B)
    (hl : B.instructions = before ++ .load dest (.register slot) type :: after) :
    f.Carries γ b (before ++ [.load dest (.register slot) type]) slot (.register dest) := by
  have hi : .load dest (.register slot) type ∈ f.instructions :=
    mem_of_block? hB (by simp [hl])
  refine ⟨⟨type, Grading.reads_register.mp (hty _ hi).2, (hty _ hi).1⟩, ?_, ?_⟩
  · rintro r hr
    cases hr
    exact ⟨_, hi, rfl⟩
  · rintro r hr
    cases hr
    exact .of_gives (List.mem_append_right _ (List.mem_singleton.mpr rfl)) rfl

/-- What is known to be in slots is there. -/
def Known (f : Function) (γ : Grading) (b : BlockId) (before : List Instruction) (known : Contents) : Prop :=
  ∀ slot v, known[slot]? = some v → f.Carries γ b before slot v

theorem Known.append (h : f.Known γ b before known) (more : List Instruction) : f.Known γ b (before ++ more) known :=
  fun slot v hv => (h slot v hv).append more

theorem Known.insert (h : f.Known γ b before known) (hv : f.Carries γ b before slot v) : f.Known γ b before (known.insert slot v) := by
  intro q w hq
  rw [Std.TreeMap.getElem?_insert] at hq
  split at hq
  · rename_i heq
    rw [Nat.compare_eq_eq] at heq
    cases hq
    exact heq ▸ hv
  · exact h q w hq

/-- Forwarding inside a block replaces loads by copies of what is there. -/
theorem WellFormed.thinned_forward (hf : f.WellFormed I) (hty : ∀ i ∈ f.instructions, γ.Types i) (hB : f.block? b = some B)
    (slots : Registers) (hl : B.instructions = before ++ after) (hknown : f.Known γ b before known) :
    Thinned (f.Forwarded γ) (fun _ => False) after (forward slots known after).2 := by
  induction after generalizing before known with
  | nil => exact .nil
  | cons i rest ih =>
    have hl' : B.instructions = (before ++ [i]) ++ rest := by simp [hl]
    have hnext : Thinned (f.Forwarded γ) (fun _ => False) rest (forward slots known rest).2 := ih hl' (hknown.append [i])
    cases i with
    | store pointer value type =>
      refine .keep (.inl rfl) ?_
      cases hs : pointer.slotIn? slots with
      | none => exact hnext
      | some slot =>
        obtain ⟨rfl, -⟩ := eq_of_slotIn? hs
        exact ih hl' ((hknown.append _).insert (hf.available_stored hty hB hl))
    | load dest pointer type =>
      rw [forward]
      cases hs : pointer.slotIn? slots with
      | none => exact .keep (.inl rfl) hnext
      | some slot =>
        obtain ⟨rfl, -⟩ := eq_of_slotIn? hs
        cases hv : known[slot]? with
        | some v =>
          simp only [hv]
          exact .keep (.inr ⟨dest, slot, type, v, rfl, rfl, b, B, before, rest, hB, hl, hknown slot v hv⟩) hnext
        | none =>
          simp only [hv]
          exact .keep (.inl rfl) (ih hl' ((hknown.append _).insert (WellFormed.available_loaded hty hB hl)))
    | _ => exact .keep (.inl rfl) hnext

/-- Forwarding inside the blocks keeps a function well formed. -/
theorem WellFormed.forwardInBlocks (hf : f.WellFormed I) (slots : Registers) : (f.forwardInBlocks slots).2.WellFormed I := by
  obtain ⟨γ, hI, hsig, hp, hty, hte⟩ := hf.typed
  have hblocks : (f.forwardInBlocks slots).2.blocks =
      f.blocks.map fun b => { b with instructions := (forward slots ∅ b.instructions).2 } := by
    simp [Function.forwardInBlocks]
  refine hf.forwarded hI hsig hp hty hte ⟨rfl, rfl, rfl, rfl, rfl, ?_, fun _ _ h => h.stands⟩ ?_
  · rw [hblocks, List.forall₂_map_right_iff, List.forall₂_same]
    intro B hB
    obtain ⟨b, hb⟩ := exists_block? hB
    exact ⟨rfl, rfl, rfl, id, hf.thinned_forward hty hb slots (List.nil_append _).symm fun slot v h => by simp at h⟩
  · intro b B B' hB hB'
    have hB' : (f.forwardInBlocks slots).2.blocks[b]? = some B' := hB'
    rw [hblocks, List.getElem?_map, show f.blocks[b]? = some B from hB] at hB'
    exact Option.some.inj hB' ▸ rfl

/-! ## From the entry -/

/-- The stores of a function to slots, with their blocks. -/
def allStores (slots : Registers) (f : Function) : List (BlockId × Register × Value) :=
  f.blocks.flatMap fun b => (storesOf slots b).map (b.id, ·)

/-- A store of a block to a slot is one of its instructions. -/
theorem mem_storesOf {b : Block} :
    (slot, v) ∈ storesOf slots b ↔ slot ∈ slots ∧ ∃ type, .store (.register slot) v type ∈ b.instructions := by
  unfold storesOf
  rw [List.mem_filterMap]
  constructor
  · rintro ⟨i, hi, hs⟩
    cases i with
    | store pointer value type =>
      obtain ⟨s, hin, he⟩ := Option.map_eq_some_iff.mp hs
      obtain ⟨rfl, rfl⟩ := Prod.mk.inj he
      obtain ⟨rfl, hmem⟩ := eq_of_slotIn? hin
      exact ⟨hmem, type, hi⟩
    | _ => cases hs
  · rintro ⟨hmem, type, hi⟩
    refine ⟨_, hi, ?_⟩
    simp [Value.slotIn?, Std.TreeSet.contains_iff_mem, hmem]

/-- What is counted of a list of stores: how many there are to a slot, and the value of the last of them in the entry. -/
theorem foldl_countStore (entry : BlockId) (slot : Register) (l : List (BlockId × Register × Value)) :
    (l.foldl (fun c s => countStore (s.1 = entry) c s.2) ∅)[slot]?.getD (0, none) =
      ((l.filter (·.2.1 = slot)).length, ((l.filter (·.2.1 = slot)).filter (·.1 = entry)).getLast?.map (·.2.2)) := by
  induction l using List.reverseRecOn with
  | nil => simp
  | append_singleton l s ih =>
    rw [List.foldl_append, List.foldl_cons, List.foldl_nil, List.filter_append, List.filter_append]
    generalize l.foldl (fun c s => countStore (s.1 = entry) c s.2) ∅ = counts at ih
    obtain ⟨id, q, v⟩ := s
    rw [countStore, Std.TreeMap.getElem?_insert]
    by_cases hq : q = slot
    · subst hq
      by_cases hid : id = entry
      · simp [hid, ih]
      · simp [hid, ih]
    · simp [hq, ih]

/-- The counts of a function are those of the list of its stores. -/
theorem storeCounts_eq (slots : Registers) (f : Function) :
    storeCounts slots f = (f.allStores slots).foldl (fun c s => countStore (s.1 = f.entry) c s.2) ∅ := by
  simp [storeCounts, allStores, List.foldl_flatMap, List.foldl_map]

/-- The only value that is stored to a slot: there is one store to it, in the entry. -/
theorem singleStore?_eq_some (h : singleStore? (storeCounts slots f) slot = some v) :
    (f.allStores slots).filter (·.2.1 = slot) = [(f.entry, slot, v)] := by
  have hcount := foldl_countStore f.entry slot (f.allStores slots)
  rw [← storeCounts_eq] at hcount
  unfold singleStore? at h
  split at h
  · rename_i value hc
    subst h
    rw [hc, Option.getD_some, Prod.mk.injEq] at hcount
    obtain ⟨hlen, hlast⟩ := hcount
    obtain ⟨s, hs⟩ := List.length_eq_one_iff.mp hlen.symm
    have hslot : s.2.1 = slot := by
      simpa using (List.mem_filter.mp (hs ▸ List.mem_singleton.mpr rfl : s ∈ (f.allStores slots).filter (·.2.1 = slot))).2
    obtain ⟨id, q, w⟩ := s
    obtain rfl : q = slot := hslot
    rw [hs] at hlast ⊢
    by_cases hid : id = f.entry
    · subst hid
      simpa [eq_comm] using hlast
    · simp [hid] at hlast
  · cases h

/-- The only value stored to a slot is there in every block but the entry. -/
theorem WellFormed.available_single (hf : f.WellFormed I) (hty : ∀ i ∈ f.instructions, γ.Types i)
    (h : singleStore? (storeCounts slots f) slot = some v) (hb : b ≠ f.entry) (before : List Instruction) :
    f.Carries γ b before slot v := by
  have hmem : (f.entry, slot, v) ∈ f.allStores slots :=
    List.mem_of_mem_filter (singleStore?_eq_some h ▸ List.mem_singleton.mpr rfl)
  obtain ⟨E, hE, he⟩ := List.mem_flatMap.mp hmem
  obtain ⟨s, hs, he⟩ := List.mem_map.mp he
  obtain ⟨hid, rfl⟩ := Prod.mk.inj he
  obtain ⟨-, type, hi⟩ := mem_storesOf.mp hs
  have hE : f.block? f.entry = some E := hid ▸ hf.shaped.block?_id hE
  obtain ⟨pre, post, hl⟩ := List.append_of_mem hi
  obtain ⟨ht, hd, hh⟩ := hf.available_stored hty hE hl
  exact ⟨ht, hd, fun r hr => (hh r hr).outside_entry hE (hl.trans (List.append_cons ..)) hb before⟩

/-- Forwarding from the entry changes the loads of the other blocks. -/
theorem Shaped.block?_forwardFromEntry (h : f.Shaped) (slots : Registers) (b : BlockId) :
    (f.forwardFromEntry slots).2.block? b = (f.block? b).map fun B =>
      if b = f.entry then B
      else B.mapInstructions fun i => (loadCopy? slots (singleStore? (storeCounts slots f)) i).getD i := by
  rw [Function.block?, Function.block?]
  simp only [Function.forwardFromEntry, List.getElem?_map]
  cases hB : f.blocks[b]? with
  | none => rfl
  | some B => simp only [Option.map_some, h.ids b B hB]

/-- Forwarding from the entry keeps a function well formed. -/
theorem WellFormed.forwardFromEntry (hf : f.WellFormed I) (slots : Registers) : (f.forwardFromEntry slots).2.WellFormed I := by
  obtain ⟨γ, hI, hsig, hp, hty, hte⟩ := hf.typed
  have hblock := hf.shaped.block?_forwardFromEntry slots
  refine hf.forwarded hI hsig hp hty hte ⟨rfl, rfl, rfl, rfl, rfl, ?_, fun _ _ h => h.stands⟩ ?_
  · refine List.forall₂_iff_get.mpr ⟨by simp [Function.forwardFromEntry], fun b hb hb' => ?_⟩
    have hB : f.block? b = some f.blocks[b] := List.getElem?_eq_getElem hb
    have hB' := hblock b
    rw [hB, Function.block?, List.getElem?_eq_getElem hb', Option.map_some, Option.some.injEq] at hB'
    simp only [List.get_eq_getElem, hB']
    split
    · exact ⟨rfl, rfl, rfl, id, by simpa using Thinned.map (f := id) fun _ _ => .inl rfl⟩
    · rename_i hne
      refine ⟨rfl, rfl, rfl, id, Thinned.map fun i hi => ?_⟩
      cases hr : loadCopy? slots (singleStore? (storeCounts slots f)) i with
      | none => exact .inl rfl
      | some i' =>
        obtain ⟨dest, slot, type, v, rfl, rfl, -, hv⟩ := loadCopy?_eq_some hr
        obtain ⟨pre, post, hl⟩ := List.append_of_mem hi
        exact .inr ⟨dest, slot, type, v, rfl, rfl, b, _, pre, post, hB, hl, hf.available_single hty hv hne pre⟩
  · intro b B B' hB hB'
    rw [hblock, hB, Option.map_some, Option.some.injEq] at hB'
    subst hB'
    split <;> rfl

/-- Forwarding stores keeps a function well formed. -/
theorem WellFormed.forwardStores (hf : f.WellFormed I) : f.forwardStores.2.WellFormed I :=
  (hf.forwardInBlocks f.localSlots).forwardFromEntry f.localSlots

end Function

end Ember.IR
