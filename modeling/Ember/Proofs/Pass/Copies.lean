import Ember.Pass.CopyPropagation
import Ember.Proofs.Pass.Recast

/-!
# Copies

`Copy f r v` says that an instruction of `f` copies `v` to `r`; `CopyChain` follows copies of copies. The resolved copies of a
function are chains (`Function.copies_chain`), whatever the order in which they were resolved. A chain leads to a value that is
there wherever the copy is (`CopyChain.holds`), since the definition of a copied register dominates the copy. For a phi whose edges
all bring the same register this is an argument about ways: the first time the block of the phi is entered, it is entered over
an edge that brings the register.
-/

namespace Ember.IR

/-- An instruction of the function copies a value to a register. -/
def Function.Copy (f : Function) (r : Register) (v : Value) : Prop :=
  ∃ i ∈ f.instructions, i.copy? = some (r, v)

/-- A value at the end of a chain of copies that starts with a register. -/
inductive Function.CopyChain (f : Function) : Register → Value → Prop where
  | one {r : Register} {v : Value} : f.Copy r v → CopyChain f r v
  | more {r s : Register} {v : Value} : f.Copy r (.register s) → CopyChain f s v → CopyChain f r v

namespace Function

variable {I : Interface} {f : Function} {r s : Register} {v w : Value}

theorem CopyChain.trans (h : f.CopyChain r (.register s)) (h' : f.CopyChain s v) : f.CopyChain r v := by
  generalize hw : Value.register s = w at h
  induction h with
  | one hc => exact .more (hw ▸ hc) h'
  | more hc _ ih => exact .more hc (ih hw)

/-- The instructions that copy: assignments, and phis all of whose values but themselves are alike. -/
theorem copy?_cases {i : Instruction} (h : i.copy? = some (r, v)) :
    i = .assign r v ∨ ∃ type incoming, i = .phi r type incoming ∧ v ∈ incoming.map (·.1) ∧ v ≠ .register r ∧
      ∀ w ∈ incoming.map (·.1), w = .register r ∨ w.like v = true ∨ w = v := by
  cases i with
  | assign dest value =>
    simp only [Instruction.copy?] at h
    split at h
    · exact absurd h (by simp)
    · rw [Option.some.injEq, Prod.mk.injEq] at h
      obtain ⟨rfl, rfl⟩ := h
      exact .inl rfl
  | phi dest type incoming =>
    simp only [Instruction.copy?] at h
    split at h
    · exact absurd h (by simp)
    · rename_i first rest hl
      split at h
      · rename_i hall
        rw [Option.some.injEq, Prod.mk.injEq] at h
        obtain ⟨rfl, rfl⟩ := h
        have hmem : ∀ w, w ∈ first :: rest ↔ w ∈ incoming.map (·.1) ∧ w ≠ .register dest := by
          intro w
          rw [← hl, List.mem_filter, decide_eq_true_eq]
        obtain ⟨hin, hne⟩ := (hmem first).mp List.mem_cons_self
        refine .inr ⟨type, incoming, rfl, hin, hne, fun w hw => ?_⟩
        by_cases hself : w = .register dest
        · exact .inl hself
        · rcases List.mem_cons.mp ((hmem w).mpr ⟨hw, hself⟩) with rfl | hrest
          · exact .inr (.inr rfl)
          · exact .inr (.inl (List.all_eq_true.mp hall w hrest))
      · exact absurd h (by simp)
  | _ => simp [Instruction.copy?] at h

/-- What is like a register is that register. -/
theorem Value.eq_of_like_register (h : w.like (.register s) = true) : w = .register s := by
  cases w <;> simp_all [Value.like]

/-! ## The resolved copies -/

/-- The collected copies are copies of the function. -/
theorem copy_of_ofFunction (h : (Copies.ofFunction f)[r]? = some v) : f.Copy r v := by
  have : ∀ (l : List (Register × Value)) (cs : Copies), (∀ r v, cs[r]? = some v → f.Copy r v) →
      (∀ x ∈ l, f.Copy x.1 x.2) → ∀ r v, (l.foldl (fun copies x => copies.insert x.1 x.2) cs)[r]? = some v →
      f.Copy r v := by
    intro l
    induction l with
    | nil => exact fun cs hcs _ => hcs
    | cons x l ih =>
      intro cs hcs hl
      refine ih _ (fun r v hr => ?_) fun y hy => hl y (List.mem_cons_of_mem _ hy)
      rw [Std.TreeMap.getElem?_insert] at hr
      split at hr
      · rename_i heq
        rw [Nat.compare_eq_eq] at heq
        obtain rfl := Option.some.inj hr
        exact heq ▸ hl x List.mem_cons_self
      · exact hcs r v hr
  refine this _ ∅ (fun r v hr => by simp at hr) (fun x hx => ?_) r v h
  obtain ⟨i, hi, hcs⟩ := List.mem_filterMap.mp hx
  exact ⟨i, hi, hcs⟩

/-- Following copies that are chains goes along a chain. -/
theorem follow_chain {cs : Copies} (hcs : ∀ r v, cs[r]? = some v → f.CopyChain r v) (fuel : Nat) (seen : List Register)
    (h : f.CopyChain r v) : f.CopyChain r (cs.follow fuel seen v).2 := by
  induction fuel generalizing seen v with
  | zero => exact h
  | succ fuel ih =>
    rw [Copies.follow]
    split
    · exact h
    · rename_i q next hnext
      split
      · exact h
      · refine ih _ ?_
        simp only [Copies.next?, Option.bind_eq_bind, Option.bind_eq_some_iff, Option.pure_def, Option.some.injEq,
          Prod.mk.injEq] at hnext
        obtain ⟨q', hq', next', hn, rfl, rfl⟩ := hnext
        have hv : v = .register q' := by
          cases v <;> simp_all [Value.register?]
        exact (hv ▸ h).trans (hcs _ _ hn)

/-- Following copies goes on from the registers that it has seen. -/
theorem mem_follow {cs : Copies} (fuel : Nat) {seen : List Register} (h : r ∈ seen) : r ∈ (cs.follow fuel seen v).1 := by
  induction fuel generalizing seen v with
  | zero => exact h
  | succ fuel ih =>
    rw [Copies.follow]
    split
    · exact h
    · split
      · exact h
      · exact ih (List.mem_cons_of_mem _ h)

/-- What holds of every copy, and of the end of a chain that does not come round, holds of the resolved copies of a function. -/
theorem copies_induction {Q : Register → Value → Prop} (hcopy : ∀ r v, f.Copy r v → Q r v)
    (hstep : ∀ cs : Copies, (∀ r v, cs[r]? = some v → Q r v) → ∀ fuel r v, cs[r]? = some v →
      (cs.follow fuel [r] v).2 ≠ .register r → Q r (cs.follow fuel [r] v).2) (h : f.copies[r]? = some v) : Q r v := by
  have : ∀ (order : List Register) (cs : Copies), (∀ r v, cs[r]? = some v → Q r v) →
      ∀ r v, (cs.resolveAll order)[r]? = some v → Q r v := by
    intro order
    induction order with
    | nil => exact fun cs hcs => hcs
    | cons q order ih =>
      intro cs hcs
      refine ih (cs.resolve q) fun r v hr => ?_
      unfold Copies.resolve at hr
      split at hr
      · exact hcs r v hr
      · rename_i x hx
        dsimp only at hr
        split at hr
        · rw [Std.TreeMap.getElem?_erase] at hr
          split at hr
          · exact absurd hr (by simp)
          · exact hcs r v hr
        · rename_i hround
          rw [Std.TreeMap.getElem?_insert] at hr
          split at hr
          · rename_i heq
            rw [Nat.compare_eq_eq] at heq
            subst heq
            cases hr
            refine hstep cs hcs _ q x hx fun hlast => hround ?_
            rw [hlast]
            simpa [Value.register?] using mem_follow (v := x) (cs.size + 1) (List.mem_singleton_self q)
          · exact hcs r v hr
  exact this _ _ (fun r v hr => hcopy r v (copy_of_ofFunction hr)) r v h

/-- The resolved copies of a function are chains of copies. -/
theorem copies_chain (h : f.copies[r]? = some v) : f.CopyChain r v :=
  copies_induction (fun _ _ hc => .one hc) (fun _ hcs fuel r v hv _ => follow_chain hcs fuel [r] (hcs r v hv)) h

/-- No copy is of a register to itself, also when it has been resolved. -/
theorem copies_ne (h : f.copies[r]? = some v) : v ≠ .register r := by
  refine copies_induction (Q := fun r v => v ≠ .register r) (fun r v hc => ?_) (fun _ _ _ _ _ _ hne => hne) h
  obtain ⟨i, -, hc⟩ := hc
  rcases copy?_cases hc with rfl | ⟨_, _, -, -, hne, -⟩
  · rintro rfl
    simp [Instruction.copy?] at hc
  · exact hne

/-! ## Where the copied value is there -/

/-- If a register is set wherever a fact becomes true, it is set wherever the fact holds. -/
theorem Holds.of_source {k : Fact} {b : BlockId} {B : Block} {before after : List Instruction}
    (hsrc : ∀ p P pre i post, f.block? p = some P → P.instructions = pre ++ i :: post → i.Gives k → f.Holds (.set s) p pre)
    (hB : f.block? b = some B) (hl : B.instructions = before ++ after) (h : f.Holds k b before) : f.Holds (.set s) b before := by
  rcases h with ⟨i, hi, hg⟩ | h
  · obtain ⟨pre, post, rfl⟩ := List.append_of_mem hi
    exact (hsrc b B pre i (post ++ after) hB (by simp [hl]) hg).append (i :: post)
  · refine .inr fun hr => h ?_
    -- A way that avoids setting `s` never runs through a block that makes the fact true.
    clear h hl hB
    induction hr with
    | entry => exact .entry
    | @edge p x P hp hP hn hs ih =>
      refine ih.edge hP (fun ⟨i, hi, hg⟩ => ?_) hs
      obtain ⟨pre, post, hl⟩ := List.append_of_mem hi
      rcases hsrc p P pre i post hP hl hg with ⟨j, hj, hgj⟩ | hno
      · exact hn ⟨j, by simp [hl, hj], hgj⟩
      · exact hno hp

/-- The source of a copy is set where the copy is made. A phi that copies has only edges that bring the source and edges that
bring the phi itself, and it cannot be entered first over one of the latter. -/
theorem Copy.holds_source (hf : f.WellFormed I) (h : f.Copy r (.register s)) {p : BlockId} {P : Block}
    {pre post : List Instruction} {i : Instruction} (hP : f.block? p = some P) (hl : P.instructions = pre ++ i :: post)
    (hi : i.dest? = some r) : f.Holds (.set s) p pre := by
  obtain ⟨j, hj, hc⟩ := h
  obtain ⟨q, Q, hq, hjQ⟩ := mem_instructions.mp hj
  have hiP : i ∈ P.instructions := by simp [hl]
  have hunique : ∀ {x : BlockId} {X : Block}, f.block? x = some X → X.Gives (.set r) → x = p := by
    rintro x X hX ⟨k, hk, hg⟩
    exact (hf.shaped.unique hX hP hk hiP hg hi).1
  rcases copy?_cases hc with rfl | ⟨type, incoming, rfl, hin, hne, hall⟩
  · obtain ⟨rfl, rfl⟩ := hf.shaped.unique hP hq hiP hjQ hi rfl
    exact hf.settled.at_instruction p P pre _ post hP hl rfl (.set s) (by simp [Needs, Instruction.operands])
  · obtain ⟨rfl, rfl⟩ := hf.shaped.unique hP hq hiP hjQ hi rfl
    obtain rfl := hf.shaped.phi_head (List.mem_of_getElem? hP) hl rfl
    obtain ⟨-, hedges⟩ := hf.shaped.phi_edges p P r type incoming post hP hl
    refine .inr fun hr => ?_
    suffices key : ∀ x, f.Reaches (·.Gives (.set s)) x → f.Reaches (·.Gives (.set r)) x ∧ x ≠ p from (key p hr).2 rfl
    intro x hx
    induction hx with
    | entry =>
      refine ⟨.entry, fun he => ?_⟩
      obtain ⟨e, he', -⟩ := List.mem_map.mp hin
      obtain ⟨S, hS, hs⟩ := (hedges e.2).mp (List.mem_map.mpr ⟨e, he', rfl⟩)
      exact hf.shaped.entry_free S (List.mem_of_getElem? hS) (he ▸ hs)
    | @edge y x Y hy hY hn hs ih =>
      have hnr : ¬Y.Gives (.set r) := fun hg => ih.2 (hunique hY hg)
      refine ⟨ih.1.edge hY hnr hs, ?_⟩
      rintro rfl
      obtain ⟨e, he, rfl⟩ := List.mem_map.mp ((hedges y).mpr ⟨Y, hY, hs⟩)
      obtain ⟨u, y⟩ := e
      have hedge : ∀ t, u = .register t → f.Holds (.set t) y Y.instructions := fun t ht =>
        hf.settled.at_edge P (List.mem_of_getElem? hP) r type incoming hiP t y Y (ht ▸ he) hY
      rcases hall u (List.mem_map.mpr ⟨_, he, rfl⟩) with hu | hu | hu
      · rcases hedge r hu with hg | hno
        · exact hnr hg
        · exact hno ih.1
      · rcases hedge s (Value.eq_of_like_register hu) with hg | hno
        · exact hn hg
        · exact hno hy
      · rcases hedge s hu with hg | hno
        · exact hn hg
        · exact hno hy

/-- The register at the end of a chain of copies is set wherever the first one is. -/
theorem CopyChain.holds (hf : f.WellFormed I) (h : f.CopyChain r (.register s)) {b : BlockId} {B : Block}
    {before after : List Instruction} (hB : f.block? b = some B) (hl : B.instructions = before ++ after)
    (hr : f.Holds (.set r) b before) : f.Holds (.set s) b before := by
  generalize hw : Value.register s = w at h
  induction h with
  | one hc =>
    subst hw
    exact hr.of_source (k := .set _) (fun _ _ _ _ _ hP hl hi => hc.holds_source hf hP hl hi) hB hl
  | more hc _ ih => exact ih (hr.of_source (k := .set _) (fun _ _ _ _ _ hP hl hi => hc.holds_source hf hP hl hi) hB hl) hw

/-! ## Copy propagation -/

/-- A chain of copies starts with a register for data and leads to a value of the same type. -/
theorem CopyChain.typed {γ : Grading} (hty : ∀ i ∈ f.instructions, γ.Types i) (h : f.CopyChain r v) :
    ∃ t, γ.register r = .datum t ∧ γ.Has v (.datum t) := by
  have hone : ∀ {r v}, f.Copy r v → ∃ t, γ.register r = .datum t ∧ γ.Has v (.datum t) := by
    rintro r v ⟨i, hi, hc⟩
    rcases copy?_cases hc with rfl | ⟨type, incoming, rfl, hin, -⟩
    · exact hty _ hi
    · obtain ⟨hr, hall⟩ := hty _ hi
      obtain ⟨e, he, rfl⟩ := List.mem_map.mp hin
      exact ⟨type, hr, hall e he⟩
  induction h with
  | one hc => exact hone hc
  | more hc _ ih =>
    obtain ⟨t, hr, hs⟩ := hone hc
    obtain ⟨t', hs', hv⟩ := ih
    cases hs'.symm.trans hs
    exact ⟨t, hr, hv⟩

/-- The value at the end of a chain of copies is an operand of the function. -/
theorem CopyChain.mem_operands (h : f.CopyChain r v) : v ∈ f.operands := by
  have hone : ∀ {r v}, f.Copy r v → v ∈ f.operands := by
    rintro r v ⟨i, hi, hc⟩
    refine Function.mem_operands hi ?_
    rcases copy?_cases hc with rfl | ⟨type, incoming, rfl, hin, -⟩
    · exact List.mem_singleton.mpr rfl
    · exact hin
  induction h with
  | one hc => exact hone hc
  | more _ _ ih => exact ih

/-- The value that stands for a register after copies were propagated. -/
theorem substituted_copies (f : Function) (v : Value) :
    substituted (f.copies[·]?) v = v ∨ ∃ r, v = .register r ∧ f.CopyChain r (substituted (f.copies[·]?) v) := by
  cases v with
  | register r =>
    cases hr : f.copies[r]? with
    | none => exact .inl (by simp [substituted, Value.register?, hr])
    | some w =>
      refine .inr ⟨r, rfl, ?_⟩
      simpa [substituted, Value.register?, hr] using copies_chain hr
  | _ => exact .inl rfl

end Function

/-- The operands of an instruction after exchanging them. -/
theorem Instruction.operands_mapOperands (i : Instruction) (σ : Value → Value) : (i.mapOperands σ).operands = i.operands.map σ := by
  cases i <;> simp [Instruction.mapOperands, Instruction.operands]

/-- The operands through which an instruction reads, after exchanging them. -/
theorem Instruction.reading_mapOperands (i : Instruction) (σ : Value → Value) : (i.mapOperands σ).reading = i.reading.map σ := by
  cases i <;> simp [Instruction.mapOperands, Instruction.reading]

theorem Terminator.operands_mapOperands (t : Terminator) (σ : Value → Value) : (t.mapOperands σ).operands = t.operands.map σ := by
  cases t with
  | ret value => cases value <;> rfl
  | _ => rfl

theorem Block.operands_mapOperands (B : Block) (σ : Value → Value) : (B.mapOperands σ).operands = B.operands.map σ := by
  cases ht : B.terminator <;> simp [Block.operands, Block.mapOperands, ht, List.map_flatMap, List.flatMap_map,
    Instruction.operands_mapOperands, Terminator.operands_mapOperands]

theorem Terminator.successors_mapOperands (t : Terminator) (σ : Value → Value) : (t.mapOperands σ).successors = t.successors := by
  cases t <;> rfl

namespace Function

variable {I : Interface} {f : Function}

/-- Propagating copies keeps a function well formed. -/
theorem WellFormed.propagateCopies (hf : f.WellFormed I) : f.propagateCopies.2.WellFormed I := by
  obtain ⟨γ, hI, hsig, hp, hty, hte⟩ := hf.typed
  obtain ⟨σ, hσ⟩ : ∃ σ, σ = substituted (f.copies[·]?) := ⟨_, rfl⟩
  have hchain : ∀ v, σ v = v ∨ ∃ r, v = .register r ∧ f.CopyChain r (σ v) := hσ ▸ substituted_copies f
  -- The address of a cell is never a copy.
  have haddress : ∀ r t, γ.register r = .address t → σ (.register r) = .register r := by
    intro r t hr
    rcases hchain (.register r) with h | ⟨q, hq, hc⟩
    · exact h
    · cases hq
      obtain ⟨t', hr', -⟩ := hc.typed hty
      simp [hr] at hr'
  have hhas : ∀ v g, γ.Has v g → γ.Has (σ v) g := by
    intro v g hv
    rcases hchain v with h | ⟨r, rfl, hc⟩
    · rwa [h]
    · obtain ⟨t, hr, hw⟩ := hc.typed hty
      obtain rfl : g = .datum t := hv.symm.trans hr
      exact hw
  have hback : ∀ v r, σ v = .register r → v = .register r ∨ ∃ q, v = .register q ∧ f.CopyChain q (.register r) := by
    intro v r hv
    rcases hchain v with h | ⟨q, rfl, hc⟩
    · exact .inl (h.symm.trans hv)
    · exact .inr ⟨q, rfl, hv ▸ hc⟩
  have hdef : f.propagateCopies.2 = f.mapBlocks (·.mapOperands σ) := by rw [hσ]; rfl
  rw [hdef]
  let change (i i' : Instruction) : Prop := i ∈ f.instructions ∧ i' = i.mapOperands σ
  have hrecast : f.Recast change (fun _ => False) (f.mapBlocks (·.mapOperands σ)) := by
    refine ⟨rfl, rfl, rfl, rfl, rfl, ?_, ?_⟩
    · rw [mapBlocks, List.forall₂_map_right_iff, List.forall₂_same]
      intro B hB
      refine ⟨rfl, rfl, ?_, ?_, Thinned.map fun i hi => ⟨List.mem_flatMap.mpr ⟨B, hB, hi⟩, rfl⟩⟩
      · cases ht : B.terminator with
        | none => simp [Block.successors, Block.mapOperands, ht]
        | some t => simp [Block.successors, Block.mapOperands, ht, Terminator.successors_mapOperands]
      · simp [Block.mapOperands]
    · rintro i i' ⟨hi, rfl⟩
      refine ⟨by cases i <;> rfl, by cases i <;> rfl, by cases i <;> rfl, ?_, ?_, ?_⟩
      · cases i <;> simp [Instruction.mapOperands, Instruction.sources]
      · intro k hk
        cases k with
        | set r => cases i <;> exact hk
        | filled r =>
          obtain ⟨v, t, rfl⟩ := hk
          exact ⟨σ v, t, by simp [Instruction.mapOperands, haddress r t (hty _ hi).1]⟩
      · intro r t h
        cases i <;> simp_all [Instruction.mapOperands]
  have hslot : ∀ r, f.IsSlot r → ∃ t, γ.register r = .address t := fun r => Exists.imp fun t ht => hty _ ht
  -- What comes in the place of a register that is set is set.
  have hholds : ∀ {v r b B before after}, f.block? b = some B → B.instructions = before ++ after → σ v = .register r →
      (∀ q, v = .register q → f.Holds (.set q) b before) → f.Holds (.set r) b before := by
    intro v r b B before after hB hl hv hq
    rcases hback v r hv with rfl | ⟨q, rfl, hc⟩
    · exact hq r rfl
    · exact hc.holds hf hB hl (hq q rfl)
  refine ⟨hrecast.shaped hf.shaped fun r hr => ?_, hrecast.settled (fun _ _ h => h.elim) ?_ ?_ ?_, ?_, ?_⟩
  · have hop : .register r ∈ f.operands := by
      obtain ⟨B', hB', hr⟩ := List.mem_flatMap.mp hr
      obtain ⟨B, hB, rfl⟩ := List.mem_map.mp hB'
      rw [Block.operands_mapOperands] at hr
      obtain ⟨v, hv, hvr⟩ := List.mem_map.mp hr
      rcases hback v r hvr with rfl | ⟨q, rfl, hc⟩
      · exact List.mem_flatMap.mpr ⟨B, hB, hv⟩
      · exact hc.mem_operands
    obtain ⟨i, hi, hir⟩ := hf.shaped.defined r hop
    rcases hrecast.image_instruction hi with hd | ⟨i', hi', hc⟩
    · exact hd.elim
    · exact ⟨i', hi', (hrecast.stands i i' hc).dest.trans hir⟩
  · rintro b B B' before i after before' i' after' hB hB' hl - ⟨hi, rfl⟩ - hphi k hk
    have hphi' : i.isPhi = false := by cases i <;> first | rfl | simp [Instruction.mapOperands, Instruction.isPhi] at hphi
    have hold := hf.settled.at_instruction b B before i after hB hl hphi'
    cases k with
    | set r =>
      simp only [Needs, Instruction.operands_mapOperands, List.mem_map] at hk
      obtain ⟨v, hv, hvr⟩ := hk
      exact hholds hB hl hvr fun q hq => hold (.set q) (show _ ∈ i.operands from hq ▸ hv)
    | filled r =>
      obtain ⟨hs, hr⟩ := hk
      rw [Instruction.reading_mapOperands] at hr
      obtain ⟨v, hv, hvr⟩ := List.mem_map.mp hr
      have hs := hrecast.isSlot hs
      rcases hback v r hvr with rfl | ⟨q, rfl, hc⟩
      · exact hold (.filled r) ⟨hs, hv⟩
      · obtain ⟨t, -, ht⟩ := hc.typed hty
        obtain ⟨t', ht'⟩ := hslot r hs
        exact absurd (ht'.symm.trans ht) (by simp)
  · intro b B B' t' r hB hB' ht hr
    rw [block?_mapBlocks, hB] at hB'
    obtain rfl := Option.some.inj hB'
    cases htB : B.terminator with
    | none => simp [Block.mapOperands, htB] at ht
    | some t =>
      simp only [Block.mapOperands, htB, Option.map_some, Option.some.injEq] at ht
      rw [← ht, Terminator.operands_mapOperands] at hr
      obtain ⟨v, hv, hvr⟩ := List.mem_map.mp hr
      exact hholds hB (List.append_nil _).symm hvr fun q hq => hf.settled.at_end b B t q hB htB (hq ▸ hv)
  · intro dest type incoming' hmem r p P hv hP
    obtain ⟨i, hi, -, he⟩ := hrecast.origin_instruction hmem
    obtain ⟨B, hB, hiB⟩ := List.mem_flatMap.mp hi
    cases i with
    | phi dest' type' incoming =>
      rw [Instruction.mapOperands, Instruction.phi.injEq] at he
      obtain ⟨rfl, rfl, rfl⟩ := he
      obtain ⟨⟨v, q⟩, hvq, he⟩ := List.mem_map.mp hv
      obtain ⟨hvr, rfl⟩ := Prod.mk.inj he
      refine hholds hP (List.append_nil _).symm hvr fun s hs => ?_
      exact hf.settled.at_edge B hB dest type incoming hiB s q P (hs ▸ hvq) hP
    | _ => simp [Instruction.mapOperands] at he
  · refine ⟨γ, hI, hsig, hp, fun i' hi' => ?_, fun B' hB' t' ht' => ?_⟩
    · obtain ⟨i, hi, -, rfl⟩ := hrecast.origin_instruction hi'
      exact (hty i hi).mapOperands rfl (fun _ _ _ h => h) (fun _ => hσ ▸ rfl) (fun v _ => hhas v) fun _ _ => rfl
    · obtain ⟨B, hB, rfl⟩ := List.mem_map.mp hB'
      obtain ⟨t, ht, rfl⟩ := Option.map_eq_some_iff.mp ht'
      exact (hte B hB t ht).mapOperands fun v _ => hhas v
  · intro b B' hr hB' ht'
    rw [block?_mapBlocks] at hB'
    obtain ⟨B, hB, rfl⟩ := Option.map_eq_some_iff.mp hB'
    obtain ⟨t, ht, he⟩ := Option.map_eq_some_iff.mp ht'
    cases t with
    | unreachable => exact hf.no_dead_end b B (hrecast.reachable hr) hB ht
    | _ => simp [Terminator.mapOperands] at he

end Function

end Ember.IR
