import Ember.Proofs.Pass.Spliced
import Mathlib.Data.List.TakeWhile

/-!
# Inlining keeps functions well formed

The caller and the callee are well formed for the same interface, and so is the caller after inlining: every value of the copy is there
where the callee used it, and every value of the caller where the caller used it.
-/

namespace Ember.IR

/-- The grades of the registers of a caller and, behind them, those of a copy of its callee. -/
def Grading.splice (γ γc : Grading) (size : Nat) : Grading where
  interface := γ.interface
  params := γ.params
  register r := if r < size then γ.register r else γc.register (r - size)

namespace Function

variable {I : Interface} {f callee f' : Function} {s : Splice} {b : Block}

section

variable (h : f.Spliced callee s f') (hs : f.CallAt callee s b) (hf : f.WellFormed I) (hc : callee.WellFormed I)

variable {i i' : Instruction} {C X' X : Block} {x j : BlockId} {dest r : Register} {type : Ty} {before before' after' : List Instruction}
  {k : Fact} {v : Value} {γ : Grading}

include hs hf in
/-- There is no phi behind a call. -/
theorem CallAt.after_isPhi (hi : i ∈ s.after) : i.isPhi = false := by
  refine hf.shaped.phi_first b (List.mem_of_getElem? hs.block) i ?_
  rw [hs.instructions]
  cases s.before <;> simp [hi]

include hs hf hc in
/-- If the call has a destination, the callee returns values only. -/
theorem CallAt.returns_value (hd : s.dest.isSome = true) (hC : C ∈ callee.blocks) : C.terminator ≠ some (.ret none) := by
  intro ht
  obtain ⟨γ, hI, -, -, hty, -⟩ := hf.typed
  obtain ⟨γ', hI', hsig', -, -, hte'⟩ := hc.typed
  obtain ⟨⟨grades, hsig, -⟩, -, hdest⟩ := hty _ hs.mem_call
  have hret : callee.ret = s.ret := by
    rw [hI, hsig', Option.some.injEq, Prod.mk.injEq] at hsig
    exact hsig.2
  exact hdest.mp hd (hret ▸ hte' C hC _ ht)

include h hs hf hc in
/-- The phis follow the flow after inlining. -/
theorem Spliced.phi_edges {incoming' : List (Value × BlockId)} (hX' : f'.block? x = some X')
    (hi' : .phi dest type incoming' ∈ X'.instructions) : (incoming'.map (·.2)).Nodup ∧ ∀ p, p ∈ incoming'.map (·.2) ↔ f'.Precedes p x := by
  rcases h.origin hX' hi' with ⟨X, i, hX, hi, he⟩ | ⟨-, q, t, -, he⟩ | ⟨rfl, hi⟩ | ⟨rfl, hi⟩ | ⟨j, C, i, rfl, hC, hi, -, he⟩
  · -- A phi of the caller: what came from the block of the call comes from the block behind it.
    obtain ⟨incoming, rfl, rfl⟩ := Instruction.mapIncoming_eq_phi he.symm
    obtain ⟨hn, hp⟩ := hf.shaped.phi_edges_of_mem hX (hs.mem_of_own hX hi)
    have hx : x < f.blocks.length := lt_of_block? hX
    have hlt : ∀ p ∈ incoming.map (·.2), p ≠ f.blocks.length := by
      intro p hmem
      obtain ⟨P, hP, -⟩ := (hp p).mp hmem
      exact Nat.ne_of_lt (lt_of_block? hP)
    have hcall : s.block ∈ incoming.map (·.2) ↔ x ∈ s.successors := by
      rw [hp, hs.successors]
      refine ⟨?_, fun hs' => ⟨b, hs.block, hs'⟩⟩
      rintro ⟨P, hP, hs'⟩
      cases hP.symm.trans hs.block
      exact hs'
    unfold Splice.edges
    split
    · have hmap : (incoming.map fun e => (e.1, if e.2 = s.block then f.blocks.length else e.2)).map
          (·.2) = (incoming.map (·.2)).map fun p => if p = s.block then f.blocks.length else p := by
        rw [List.map_map, List.map_map]
        rfl
      rw [hmap]
      refine ⟨hn.map_on fun p hp q hq he => ?_, fun p => ?_⟩
      · have := hlt p hp
        have := hlt q hq
        grind
      · rw [h.precedes_own hs hf.shaped hx, List.mem_map, ← hp p]
        grind
    · refine ⟨hn, fun p => ?_⟩
      rw [id, h.precedes_own hs hf.shaped hx, ← hp p]
      grind
  · cases he
  · -- The phi behind the call has an edge from every block of the copy that returns.
    obtain ⟨d, hd, ⟨_, _, -, he⟩ | he⟩ := result_cases hi
    · cases he
    obtain ⟨-, -, rfl⟩ := Instruction.phi.inj he
    refine ⟨nodup_returns, fun p => ?_⟩
    rw [h.precedes_next hs hf.shaped, List.mem_map]
    constructor
    · rintro ⟨⟨v, q⟩, hvq, rfl⟩
      obtain ⟨j, C, w, hC, hw, -, rfl⟩ := mem_returns.mp hvq
      exact ⟨j, C, some w, rfl, hC, hw⟩
    · rintro ⟨j, C, v, rfl, hC, hv⟩
      cases v with
      | none => exact absurd hv (hs.returns_value hf hc (by simp [hd]) (List.mem_of_getElem? hC))
      | some w => exact ⟨_, mem_returns.mpr ⟨j, C, w, hC, hv, rfl, rfl⟩, rfl⟩
  · cases hs.after_isPhi hf hi
  · -- A phi of the callee does not stand in its entry, so that the jump to the copy does not lead to it.
    cases i with
    | phi dest type incoming =>
      have hj : j ≠ callee.entry := by
        rintro rfl
        cases hc.shaped.phi_entry C hC _ hi
      have he : incoming' = (incoming.map fun e => ((s.transplant f callee).value e.1, e.2)).map
          fun e => (e.1, f.blocks.length + 1 + e.2) := (Instruction.phi.inj he).2.2
      obtain ⟨hn, hp⟩ := hc.shaped.phi_edges_of_mem hC hi
      have hmap : incoming'.map (·.2) = (incoming.map (·.2)).map (f.blocks.length + 1 + ·) := by
        rw [he, List.map_map, List.map_map, List.map_map]
        rfl
      rw [hmap]
      refine ⟨hn.map fun p q he => Nat.add_left_cancel he, fun p => ?_⟩
      rw [h.precedes_copy hs hf.shaped hj, List.mem_map]
      constructor
      · rintro ⟨k, hk, rfl⟩
        exact ⟨k, rfl, (hp k).mp hk⟩
      · rintro ⟨k, rfl, hk⟩
        exact ⟨k, (hp k).mpr hk, rfl⟩
    | _ => cases he

/-- The allocas of a row in which they stand first are those with which it begins. -/
theorem SlotsFirst.dropWhile {l : List Instruction} (hl : SlotsFirst l) : ∀ i ∈ l.dropWhile (·.isAlloca), i.isAlloca = false := by
  obtain ⟨slots, rest, rfl, hs, hr⟩ := hl
  rw [List.dropWhile_append_of_pos hs]
  exact fun i hi => hr i ((List.dropWhile_sublist _).subset hi)

include hs hf in
/-- Allocas stand before the call and not behind it. -/
theorem CallAt.slots_apart : SlotsFirst s.before ∧ ∀ i ∈ s.after, i.isAlloca = false := by
  have hfirst := hf.shaped.slotsFirst hs.block
  rw [hs.instructions] at hfirst
  exact hfirst.split rfl

include hs hf in
/-- Allocas stand first in what is left of a block of the caller. -/
theorem CallAt.slotsFirst_own (hX : f.block? x = some X) : SlotsFirst (s.own f x X) := by
  refine SlotsFirst.map ?_ fun i => i.isAlloca_mapIncoming _
  split
  · exact (hs.slots_apart hf).1
  · exact hf.shaped.slotsFirst hX

/-- The slots of the copy are allocas. -/
theorem isAlloca_slot (hi : i ∈ s.slots f callee) : i.isAlloca = true := by
  obtain ⟨j, hj, rfl⟩ := List.mem_map.mp hi
  simpa using (List.mem_filter.mp hj).2

/-- The slots of the copy are no phis. -/
theorem isPhi_slot (hi : i ∈ s.slots f callee) : i.isPhi = false := by
  have ha := isAlloca_slot hi
  cases i <;> first | rfl | cases ha

/-- What brings the result is no alloca. -/
theorem isAlloca_result (hi : i ∈ s.result f callee) : i.isAlloca = false := by
  obtain ⟨dest, -, ⟨v, p, -, rfl⟩ | rfl⟩ := result_cases hi <;> rfl

include hs hf in
/-- What is left of a block of the caller has no phi but at its head, and in the entry none. -/
theorem CallAt.own_isPhi (hX : f.block? x = some X) :
    (∀ i ∈ (s.own f x X).tail, i.isPhi = false) ∧ (x = f.entry → ∀ i ∈ s.own f x X, i.isPhi = false) := by
  have htail : ∀ i ∈ (if x = s.block then s.before else X.instructions).tail, i ∈ X.instructions.tail := by
    intro i hi
    split at hi
    · rename_i hc
      subst hc
      cases hX.symm.trans hs.block
      rw [hs.instructions]
      cases hb : s.before with
      | nil => simp [hb] at hi
      | cons j l => simp_all
    · exact hi
  refine ⟨fun i hi => ?_, fun hx i hi => ?_⟩
  · rw [Splice.own, ← List.map_tail] at hi
    obtain ⟨j, hj, rfl⟩ := List.mem_map.mp hi
    simpa using hf.shaped.phi_first X (List.mem_of_getElem? hX) j (htail j hj)
  · obtain ⟨j, hj, rfl⟩ := List.mem_map.mp hi
    simpa using hf.shaped.phi_entry X (hx ▸ hX) j (hs.mem_of_own hX hj)

include h hs hf hc in
/-- The function after inlining has the shape of a function. -/
theorem Spliced.shaped : f'.Shaped where
  entry_lt := by
    have := hf.shaped.entry_lt
    rw [h.entry, h.length]
    lia
  ids _ _ hX' := h.ids hf.shaped.ids hX'
  labels := h.labels hf.shaped.labels
  once := h.once hs hf.shaped hc.shaped
  sized i' hi' r hr := by
    obtain ⟨x, X', hx, hi'⟩ := mem_instructions.mp hi'
    rw [h.registers, Array.size_append]
    rcases h.home hs hf.shaped hx hi' hr with ⟨hlt, -⟩ | ⟨q, y, C, i, rfl, hC, hi, hq, -⟩
    · lia
    · have := hc.shaped.sized i (mem_of_block? hC hi) q hq
      lia
  defined r hr := by
    rcases h.operands hs hr with hr | ⟨q, hq, rfl⟩
    · obtain ⟨i, hi, hir⟩ := hf.shaped.defined r hr
      exact h.image_caller hs hi hir
    · obtain ⟨i, hi, hiq⟩ := hc.shaped.defined q hq
      exact h.image_callee hf.shaped hi hiq
  ended X' hX' := by
    obtain ⟨x, hx⟩ := exists_block? hX'
    rcases h.block?_cases hx with ⟨X, hX, rfl⟩ | ⟨-, -, ht⟩ | ⟨j, C, -, -, -, ht⟩
    · simp only [Splice.ownBlock]
      split
      · rfl
      · exact hf.shaped.ended X (List.mem_of_getElem? hX)
    · rw [ht, ← hs.terminator]
      exact hf.shaped.ended b (List.mem_of_getElem? hs.block)
    · rw [ht]
      rfl
  targets X' hX' y hy := by
    obtain ⟨x, hx⟩ := exists_block? hX'
    rw [h.length]
    rcases h.edge_cases hs hf.shaped hx hy with ⟨-, -, -, ⟨-, rfl⟩ | ⟨-, -, hlt⟩⟩ | ⟨-, -, -, hlt⟩ | ⟨j, C, -, hC, -, ⟨rfl, -⟩ | ⟨k, hk, rfl⟩⟩
    · have := hc.shaped.entry_lt
      lia
    · lia
    · lia
    · lia
    · have := hc.shaped.targets C (List.mem_of_getElem? hC) k hk
      lia
  entry_free X' hX' hy := by
    obtain ⟨x, hx⟩ := exists_block? hX'
    have hprec : f'.Precedes x f.entry := ⟨X', hx, h.entry ▸ hy⟩
    rcases (h.precedes_own hs hf.shaped hf.shaped.entry_lt).mp hprec with ⟨-, hs'⟩ | ⟨-, X, hX, hs'⟩
    · exact hf.shaped.entry_free b (List.mem_of_getElem? hs.block) (hs.successors ▸ hs')
    · exact hf.shaped.entry_free X (List.mem_of_getElem? hX) hs'
  phi_first X' hX' i' hi' := by
    obtain ⟨x, hx⟩ := exists_block? hX'
    rcases h.block?_cases hx with ⟨X, hX, rfl⟩ | ⟨-, hi, -⟩ | ⟨j, C, -, hC, hi, -⟩
    · obtain ⟨htail, hentry⟩ := hs.own_isPhi hf hX
      by_cases hxe : x = f.entry
      · rcases mem_ownBlock.mp (List.mem_of_mem_tail hi') with hi' | ⟨-, hslot⟩
        · exact hentry hxe i' hi'
        · exact isPhi_slot hslot
      · rw [Splice.ownBlock, if_neg hxe, List.append_nil, List.takeWhile_append_dropWhile] at hi'
        exact htail i' hi'
    · have hafter : i' ∈ s.after := by
        rw [hi] at hi'
        unfold Splice.result Splice.bring at hi'
        split at hi'
        · exact hi'
        · exact List.mem_of_mem_tail hi'
      exact hs.after_isPhi hf hafter
    · rw [hi, ← List.map_tail] at hi'
      obtain ⟨i, hiC, rfl⟩ := List.mem_map.mp hi'
      rw [isPhi_transplanted]
      by_cases hj : j = callee.entry
      · exact hc.shaped.phi_entry C (hj ▸ hC) i (List.mem_of_mem_filter (List.mem_of_mem_tail hiC))
      · rw [List.filter_eq_self.mpr fun i hi => by simp [hc.shaped.isAlloca_outside_entry hC hj hi]] at hiC
        exact hc.shaped.phi_first C (List.mem_of_getElem? hC) i hiC
  phi_entry X' hX' i' hi' := by
    rw [h.entry] at hX'
    obtain ⟨E, hE⟩ : ∃ E, f.block? f.entry = some E := ⟨_, List.getElem?_eq_getElem hf.shaped.entry_lt⟩
    cases hX'.symm.trans (h.own f.entry E hE)
    rcases mem_ownBlock.mp hi' with hi' | ⟨-, hslot⟩
    · exact (hs.own_isPhi hf hE).2 rfl i' hi'
    · exact isPhi_slot hslot
  phi_edges x X' dest type incoming rest hX' hl := h.phi_edges hs hf hc hX' (hl ▸ List.mem_cons_self)
  slots_first x X' hX' := by
    rw [h.entry]
    rcases h.block?_cases hX' with ⟨X, hX, rfl⟩ | ⟨rfl, hi, -⟩ | ⟨j, C, rfl, hC, hi, -⟩
    · refine ⟨_, _, rfl, fun i hi => ?_, (hs.slotsFirst_own hf hX).dropWhile, fun hx => ?_⟩
      · rcases List.mem_append.mp hi with hi | hi
        · exact List.mem_takeWhile_imp hi
        · split at hi
          · exact isAlloca_slot hi
          · exact absurd hi List.not_mem_nil
      · rw [if_neg hx, List.append_nil, List.takeWhile_eq_nil_iff]
        intro hlt
        obtain ⟨j, hj, he⟩ := List.mem_map.mp (List.getElem_mem hlt)
        simpa [← he] using hf.shaped.isAlloca_outside_entry hX hx (hs.mem_of_own hX hj)
    · refine ⟨[], _, hi, by simp, fun i hi => ?_, fun _ => rfl⟩
      rcases List.mem_append.mp hi with hi | hi
      · exact isAlloca_result hi
      · exact (hs.slots_apart hf).2 i hi
    · refine ⟨[], _, hi, by simp, fun i hi => ?_, fun _ => rfl⟩
      obtain ⟨j, hj, rfl⟩ := List.mem_map.mp hi
      simpa using (List.mem_filter.mp hj).2

/-! ## Values where they are used -/

include h hs hf in
/-- A slot after inlining is one of the caller, or of the copy. -/
theorem Spliced.alloca_origin (ht : .alloca r type ∈ f'.instructions) :
    .alloca r type ∈ f.instructions ∨ ∃ q, .alloca q type ∈ callee.instructions ∧ r = f.registers.size + q := by
  obtain ⟨x, X', hx, hi'⟩ := mem_instructions.mp ht
  rcases h.origin hx hi' with ⟨X, i, hX, hi, he⟩ | ⟨-, q, t, hq, he⟩ | ⟨-, hi⟩ | ⟨-, hi⟩ | ⟨j, C, i, -, -, -, ha, he⟩
  · have hmem := mem_of_block? hX (hs.mem_of_own hX hi)
    cases i <;> simp_all [Instruction.mapIncoming]
  · obtain ⟨rfl, rfl⟩ := Instruction.alloca.inj he
    exact .inr ⟨q, hq, rfl⟩
  · cases isAlloca_result hi
  · cases (hs.slots_apart hf).2 _ hi
  · have := isAlloca_transplanted (s.transplant f callee) i
    rw [← he, ha] at this
    cases this

include h hs hf in
/-- A slot among the registers of the caller is a slot of the caller. -/
theorem Spliced.isSlot_caller (hr : r < f.registers.size) (hslot : f'.IsSlot r) : f.IsSlot r := by
  obtain ⟨t, ht⟩ := hslot
  rcases h.alloca_origin hs hf ht with ht | ⟨q, -, rfl⟩
  · exact ⟨t, ht⟩
  · lia

include h hs hf in
/-- A slot among the registers of the copy is a slot of the callee. -/
theorem Spliced.isSlot_callee (hslot : f'.IsSlot (f.registers.size + r)) : callee.IsSlot r := by
  obtain ⟨t, ht⟩ := hslot
  rcases h.alloca_origin hs hf ht with ht | ⟨q, hq, he⟩
  · have := hf.shaped.sized _ ht _ rfl
    lia
  · exact ⟨t, Nat.add_left_cancel he ▸ hq⟩

include hs hf in
/-- What the call needs is there before it. -/
theorem CallAt.holds_before (hk : f.Needs (.call s.dest callee.name s.args s.ret) k) : f.Holds k s.block s.before :=
  hf.settled.at_instruction s.block b s.before _ s.after hs.block hs.instructions rfl k hk

include h hs hf in
/-- A register that stands for a value of the callee is there in the copy where the value was there in the callee. -/
theorem Spliced.holds_value (hr : (s.transplant f callee).value v = .register r) (hbefore : ∀ i ∈ before, i ∈ callee.instructions)
    (hold : ∀ q, v = .register q → callee.Holds (.set q) j before) :
    f'.Holds (.set r) (f.blocks.length + 1 + j) ((s.transplant f callee).copy before) := by
  have hentry : f.blocks.length + 1 + j ≠ f.entry := by
    have := hf.shaped.entry_lt
    lia
  rcases value_eq_register hr with ⟨q, rfl, -, rfl⟩ | ⟨i, -, hi⟩
  · by_cases hslot : callee.IsSlot q
    · exact h.holds_slot hf.shaped hslot hentry _
    · refine h.holds_copy hs hf.shaped (k := .set q) hbefore (fun i hi hg => ⟨?_, ?_⟩) (hold q rfl)
      · cases ha : i.isAlloca with
        | false => rfl
        | true =>
          cases i with
          | alloca d t => exact absurd ⟨t, Option.some.inj hg ▸ hi⟩ hslot
          | _ => cases ha
      · have hd : i.dest? = some q := hg
        show ((s.transplant f callee).instruction i).dest? = _
        rw [dest?_transplanted, hd]
        rfl
  · exact h.holds_behind hs hf.shaped (by lia) _ (hs.holds_before hf (k := .set r) (List.mem_of_getElem? hi))

include h hs hf in
/-- A slot that the copy reads is filled, if the slot or the argument that the callee read was. -/
theorem Spliced.holds_filled (hr : (s.transplant f callee).value v = .register r) (hslot : f'.IsSlot r)
    (hbefore : ∀ i ∈ before, i ∈ callee.instructions) (hold : ∀ q, v = .register q → callee.IsSlot q → callee.Holds (.filled q) j before) :
    f'.Holds (.filled r) (f.blocks.length + 1 + j) ((s.transplant f callee).copy before) := by
  rcases value_eq_register hr with ⟨q, rfl, hq, rfl⟩ | ⟨i, -, hi⟩
  · refine h.holds_copy hs hf.shaped (k := .filled q) hbefore (fun i _ hg => ?_)
      (hold q rfl (h.isSlot_callee hs hf hslot))
    obtain ⟨w, t, rfl⟩ := hg
    refine ⟨rfl, (s.transplant f callee).value w, t, ?_⟩
    have : (s.transplant f callee).value (.register q) = .register (f.registers.size + q) := if_pos hq
    simp [Transplant.instruction, Instruction.mapOperands, Instruction.mapDest, Instruction.mapIncoming, this]
  · have harg := List.mem_of_getElem? hi
    have hcaller := h.isSlot_caller hs hf (hf.shaped.operand_lt (hs.mem_operands_arg harg)) hslot
    exact h.holds_behind hs hf.shaped (by lia) _ (hs.holds_before hf (k := .filled r) ⟨hcaller, harg⟩)

/-- A place of a block of the copy is a place of the block of the callee. -/
theorem split_copied {t : Transplant} (hl : t.copy C.instructions = before' ++ i' :: after') :
    ∃ before i after, C.instructions = before ++ i :: after ∧ i' = t.instruction i ∧
      before' = t.copy before := by
  obtain ⟨l₁, l₂, hfilter, rfl, hl₂⟩ := List.map_eq_append_iff.mp hl
  obtain ⟨i, l₃, rfl, rfl, rfl⟩ := List.map_eq_cons_iff.mp hl₂
  obtain ⟨k₁, k₂, hC, rfl, hk₂⟩ := List.filter_eq_append_iff.mp hfilter
  obtain ⟨k₃, k₄, rfl, hno, -, -⟩ := List.filter_eq_cons_iff.mp hk₂
  refine ⟨k₁ ++ k₃, i, k₄, by rw [hC, List.append_assoc], rfl, ?_⟩
  rw [Transplant.copy, List.filter_append, List.filter_eq_nil_iff.mpr hno, List.append_nil]

/-- A place of what is left of a block of the caller is a place of the block. -/
theorem CallAt.split_own (hs : f.CallAt callee s b) (hX : f.block? x = some X)
    (hl : (s.ownBlock f callee x X).instructions = before' ++ i' :: after') :
    i' ∈ s.slots f callee ∨ ∃ before i after, X.instructions = before ++ i :: after ∧ i' = i.mapIncoming (s.edges f x) ∧
      ∀ j ∈ before, j.mapIncoming (s.edges f x) ∈ before' := by
  rcases split_inserted hl with hi | ⟨own, own', hsplit, hsub⟩
  · split at hi
    · exact .inl hi
    · exact absurd hi List.not_mem_nil
  · rw [List.takeWhile_append_dropWhile] at hsplit
    obtain ⟨l₁, l₂, hleft, rfl, hl₂⟩ := List.map_eq_append_iff.mp hsplit
    obtain ⟨i, l₃, rfl, rfl, -⟩ := List.map_eq_cons_iff.mp hl₂
    have hbefore : ∀ j ∈ l₁, j.mapIncoming (s.edges f x) ∈ before' := fun j hj => hsub _ (List.mem_map_of_mem hj)
    split at hleft
    · rename_i hx
      subst hx
      obtain rfl : b = X := Option.some.inj (hs.block.symm.trans hX)
      refine .inr ⟨l₁, i, l₃ ++ .call s.dest callee.name s.args s.ret :: s.after, ?_, rfl, hbefore⟩
      rw [hs.instructions, hleft, List.append_assoc, List.cons_append]
    · exact .inr ⟨l₁, i, l₃, hleft, rfl, hbefore⟩

include hs in
/-- What an instruction that was not changed needs, it needed before inlining. -/
theorem CallAt.needs_edges (h : f.Spliced callee s f') (hf : f.WellFormed I) (hi : i ∈ f.instructions)
    (hk : f'.Needs (i.mapIncoming (s.edges f x)) k) : f.Needs i k := by
  cases k with
  | set r =>
    have hread : .register r ∈ (i.mapIncoming (s.edges f x)).operands := hk
    rwa [operands_edges] at hread
  | filled r =>
    obtain ⟨hslot, hread⟩ := hk
    have hread : .register r ∈ i.reading := by cases i <;> simp_all [Instruction.mapIncoming, Instruction.reading]
    have hlt := hf.shaped.operand_lt (mem_operands hi (i.reading_subset _ hread))
    exact ⟨h.isSlot_caller hs hf hlt hslot, hread⟩

include h hs hf hc in
/-- A register that the copy returns is there at the end of the block that returns it. -/
theorem Spliced.holds_returned (hC : callee.block? j = some C) {w : Value} (ht : C.terminator = some (.ret (some w)))
    (hr : (s.transplant f callee).value w = .register r) :
    f'.Holds (.set r) (f.blocks.length + 1 + j) ((s.transplant f callee).copy C.instructions) :=
  h.holds_value hs hf hr (fun i hi => mem_of_block? hC hi) fun q hq =>
    hc.settled.at_end j C _ q hC ht (by simp [Terminator.operands, hq])

include h hs hf hc in
/-- The value that is assigned behind the call is there. -/
theorem Spliced.holds_result (hi : i ∈ s.result f callee) (hphi : i.isPhi = false) (hr : .register r ∈ i.operands) :
    f'.Holds (.set r) f.blocks.length [] := by
  have hentry : f.blocks.length ≠ f'.entry := by
    have := hf.shaped.entry_lt
    rw [h.entry]
    lia
  obtain ⟨dest, hd, ⟨v, p, hp, rfl⟩ | rfl⟩ := result_cases hi
  case inr => cases hphi
  obtain rfl := List.mem_singleton.mp hr
  refine Holds.of_precedes hentry fun p' P' hP' hs' => ?_
  obtain ⟨j', C', v, rfl, hC', ht'⟩ := (h.precedes_next hs hf.shaped).mp ⟨P', hP', hs'⟩
  obtain ⟨v', rfl⟩ : ∃ v', v = some v' := Option.ne_none_iff_exists'.mp fun hv =>
    hs.returns_value hf hc (by simp [hd]) (List.mem_of_getElem? hC') (hv ▸ ht')
  have hmem : ((s.transplant f callee).value v', f.blocks.length + 1 + j') ∈ s.returns f callee :=
    mem_returns.mpr ⟨j', C', v', hC', ht', rfl, rfl⟩
  rw [hp, List.mem_singleton, Prod.mk.injEq] at hmem
  rw [h.instructions_copied hC' hP']
  exact h.holds_returned hs hf hc hC' ht' hmem.1

/-- Bringing the result reads no cell. -/
theorem reading_result (hi : i ∈ s.result f callee) : i.reading = [] := by
  obtain ⟨dest, -, ⟨v, p, -, rfl⟩ | rfl⟩ := result_cases hi <;> rfl

include h hs hf hc in
/-- What an instruction of the copy needs is there. -/
theorem Spliced.holds_copied (hC : callee.block? j = some C) {after : List Instruction} (hl : C.instructions = before ++ i :: after)
    (hphi : i.isPhi = false) (hk : f'.Needs ((s.transplant f callee).instruction i) k) :
    f'.Holds k (f.blocks.length + 1 + j) ((s.transplant f callee).copy before) := by
  have hbefore : ∀ d ∈ before, d ∈ callee.instructions := fun d hd => mem_of_block? hC (by simp [hl, hd])
  have hsettled := hc.settled.at_instruction j C before i after hC hl hphi
  cases k with
  | set r =>
    have hr : .register r ∈ ((s.transplant f callee).instruction i).operands := hk
    rw [operands_transplanted] at hr
    obtain ⟨v, hv, hvr⟩ := List.mem_map.mp hr
    exact h.holds_value hs hf hvr hbefore fun q hq =>
      hsettled (.set q) (by rwa [hq] at hv)
  | filled r =>
    obtain ⟨hslot, hr⟩ := hk
    rw [reading_transplanted] at hr
    obtain ⟨v, hv, hvr⟩ := List.mem_map.mp hr
    exact h.holds_filled hs hf hvr hslot hbefore fun q hq hslot => hsettled (.filled q) ⟨hslot, hq ▸ hv⟩

include h hs hf hc in
/-- What an instruction needs after inlining is there. -/
theorem Spliced.settled_instruction (hX' : f'.block? x = some X') (hl' : X'.instructions = before' ++ i' :: after')
    (hphi : i'.isPhi = false) (hk : f'.Needs i' k) : f'.Holds k x before' := by
  rcases h.block?_cases hX' with ⟨X, hX, rfl⟩ | ⟨rfl, hi, -⟩ | ⟨j, C, rfl, hC, hi, -⟩
  · have hlt : x < f.blocks.length := lt_of_block? hX
    rcases hs.split_own hX hl' with hslot | ⟨before, i, after, hl, rfl, hsub⟩
    · obtain ⟨i, hi, rfl⟩ := List.mem_map.mp hslot
      have ha := (List.mem_filter.mp hi).2
      cases i <;> cases ha
      cases k with
      | set r => exact absurd hk List.not_mem_nil
      | filled r => exact absurd hk.2 List.not_mem_nil
    · have hmem : i ∈ f.instructions := mem_of_block? hX (by simp [hl])
      rw [Instruction.isPhi_mapIncoming] at hphi
      have hold := hf.settled.at_instruction x X before i after hX hl hphi k (hs.needs_edges h hf hmem hk)
      exact h.holds_own hs hf.shaped hlt (fun j hj => ⟨_, hsub j hj⟩) hold
  · rw [hi] at hl'
    have hbehind : ∀ l, s.after = l ++ i' :: after' → f'.Holds k f.blocks.length (s.result f callee ++ l) := by
      intro l hl
      have hmem : i' ∈ f.instructions := mem_of_block? hs.block (by simp [hs.instructions, hl])
      have hk : f.Needs i' k := hs.needs_edges h hf hmem (x := f.blocks.length)
        (by rwa [Instruction.mapIncoming_of_not_phi _ _ hphi])
      refine h.holds_next hs hf.shaped (hf.settled.at_instruction s.block b _ i' after' hs.block ?_ hphi k hk)
      rw [hs.instructions, hl, List.append_assoc, List.cons_append]
    rcases List.append_eq_append_iff.mp hl' with ⟨l, rfl, hl⟩ | ⟨l, hl, hafter⟩
    · exact hbehind l hl
    · cases l with
      | nil =>
        -- The place is behind the result, at the first instruction that stood behind the call.
        rw [List.append_nil] at hl
        simpa [hl] using hbehind [] hafter.symm
      | cons j l =>
        rw [List.cons_append, List.cons.injEq] at hafter
        obtain ⟨rfl, -⟩ := hafter
        have hres : i' ∈ s.result f callee := by simp [hl]
        cases k with
        | set r => exact (h.holds_result hs hf hc hres hphi hk).append before'
        | filled r =>
          have hread : .register r ∈ i'.reading := hk.2
          rw [reading_result hres] at hread
          exact absurd hread List.not_mem_nil
  · obtain ⟨before, i, after, hl, rfl, rfl⟩ := split_copied (hi.symm.trans hl')
    rw [isPhi_transplanted] at hphi
    exact h.holds_copied hs hf hc hC hl hphi hk

include h hs hf in
/-- What held at the end of another block of the caller still does. -/
theorem Spliced.holds_own_end (hX : f.block? x = some X) (hx : x ≠ s.block) (hold : f.Holds k x X.instructions) :
    f'.Holds k x (s.ownBlock f callee x X).instructions := by
  have hlt : x < f.blocks.length := lt_of_block? hX
  refine h.holds_own hs hf.shaped hlt (fun i hi => ⟨s.edges f x, mem_ownBlock.mpr (.inl ?_)⟩) hold
  rw [Splice.own, if_neg hx]
  exact List.mem_map_of_mem hi

include h hs hf in
/-- What held at the end of the block of the call holds at the end of the block behind the call. -/
theorem Spliced.holds_next_end (hold : f.Holds k s.block b.instructions) : f'.Holds k f.blocks.length (s.result f callee ++ s.after) :=
  h.holds_next hs hf.shaped (hs.instructions ▸ hold)

include h hs hf hc in
/-- What a terminator needs after inlining is there. -/
theorem Spliced.settled_end {t : Terminator} (hX' : f'.block? x = some X') (ht : X'.terminator = some t) (hr : .register r ∈ t.operands) :
    f'.Holds (.set r) x X'.instructions := by
  rcases h.block?_cases hX' with ⟨X, hX, rfl⟩ | ⟨rfl, hi, hterm⟩ | ⟨j, C, rfl, hC, hi, hterm⟩
  · by_cases hx : x = s.block
    · obtain rfl : .jump (f.blocks.length + 1 + callee.entry) = t := by simpa [Splice.ownBlock, hx] using ht
      exact absurd hr List.not_mem_nil
    · have ht : X.terminator = some t := by simpa [Splice.ownBlock, hx] using ht
      exact h.holds_own_end hs hf hX hx (hf.settled.at_end x X t r hX ht hr)
  · exact hi ▸ h.holds_next_end hs hf
      (hf.settled.at_end s.block b t r hs.block (hs.terminator.trans (hterm.symm.trans ht)) hr)
  · obtain rfl := Option.some.inj (hterm.symm.trans ht)
    obtain ⟨t', ht', v, hv, hvr⟩ := operands_transplanted_terminator hr
    rw [hi]
    exact h.holds_value hs hf hvr (fun i hi => mem_of_block? hC hi) fun q hq =>
      hc.settled.at_end j C t' q hC ht' (hq ▸ hv)

include h hs hf in
/-- What a phi of the caller takes from a block is there at the end of that block. -/
theorem Spliced.settled_edge_own (hX : f.block? x = some X) {incoming : List (Value × BlockId)}
    (hi : .phi dest type incoming ∈ X.instructions) {p' : BlockId} (he : (.register r, p') ∈ s.edges f x incoming) {P' : Block}
    (hP' : f'.block? p' = some P') : f'.Holds (.set r) p' P'.instructions := by
  obtain ⟨-, hp⟩ := hf.shaped.phi_edges_of_mem hX hi
  have hedge := hf.settled.at_edge X (List.mem_of_getElem? hX) dest type incoming hi r
  have hother : ∀ p, (.register r, p) ∈ incoming → p ≠ s.block → ∀ P', f'.block? p = some P' →
      f'.Holds (.set r) p P'.instructions := by
    intro p hmem hne P' hP'
    obtain ⟨P, hP, -⟩ := (hp p).mp (List.mem_map.mpr ⟨_, hmem, rfl⟩)
    obtain rfl := Option.some.inj ((h.own p P hP).symm.trans hP')
    exact h.holds_own_end hs hf hP hne (hedge p P hmem hP)
  unfold Splice.edges at he
  split at he
  · obtain ⟨⟨v, p⟩, hmem, heq⟩ := List.mem_map.mp he
    obtain ⟨rfl, rfl⟩ := Prod.mk.inj heq
    by_cases hps : p = s.block
    · subst hps
      obtain ⟨label, hnext⟩ := h.next
      rw [if_pos rfl] at hP' ⊢
      obtain rfl := Option.some.inj (hnext.symm.trans hP')
      exact h.holds_next_end hs hf (hedge s.block b hmem hs.block)
    · rw [if_neg hps] at hP' ⊢
      exact hother p hmem hps P' hP'
  · rename_i hx
    refine hother p' he (fun hps => hx ?_) P' hP'
    obtain ⟨P, hP, hsucc⟩ := (hp p').mp (List.mem_map.mpr ⟨_, he, rfl⟩)
    obtain rfl : b = P := Option.some.inj (hs.block.symm.trans (hps ▸ hP))
    exact hs.successors ▸ hsucc

include h hs hf hc in
/-- What a phi takes from a block after inlining is there at the end of that block. -/
theorem Spliced.settled_edge (hX' : X' ∈ f'.blocks) {incoming' : List (Value × BlockId)}
    (hi' : .phi dest type incoming' ∈ X'.instructions) {p' : BlockId} (he : (.register r, p') ∈ incoming') {P' : Block}
    (hP' : f'.block? p' = some P') : f'.Holds (.set r) p' P'.instructions := by
  obtain ⟨x, hx⟩ := exists_block? hX'
  rcases h.origin hx hi' with ⟨X, i, hX, hi, hii⟩ | ⟨-, q, t, -, hii⟩ | ⟨-, hi⟩ | ⟨-, hi⟩ | ⟨j, C, i, -, hC, hi, -, hii⟩
  · obtain ⟨incoming, rfl, rfl⟩ := Instruction.mapIncoming_eq_phi hii.symm
    exact h.settled_edge_own hs hf hX (hs.mem_of_own hX hi) he hP'
  · cases hii
  · -- The result: what each copied block returns is there at its end.
    obtain ⟨d, -, ⟨_, _, -, heq⟩ | heq⟩ := result_cases hi
    · cases heq
    obtain ⟨-, -, rfl⟩ := Instruction.phi.inj heq
    obtain ⟨j, C, w, hC, ht, hw, rfl⟩ := mem_returns.mp he
    rw [h.instructions_copied hC hP']
    exact h.holds_returned hs hf hc hC ht hw.symm
  · cases hs.after_isPhi hf hi
  · cases i with
    | phi dest type incoming =>
      obtain ⟨-, -, rfl⟩ := Instruction.phi.inj hii
      obtain ⟨e, he', heq⟩ := List.mem_map.mp he
      obtain ⟨⟨v, p⟩, hmem, rfl⟩ := List.mem_map.mp he'
      obtain ⟨hv, rfl⟩ := Prod.mk.inj heq
      obtain ⟨P, hP, -⟩ := ((hc.shaped.phi_edges_of_mem hC hi).2 p).mp (List.mem_map.mpr ⟨_, hmem, rfl⟩)
      rw [h.instructions_copied hP hP']
      refine h.holds_value hs hf hv (fun i hi => mem_of_block? hP hi) fun q hq => ?_
      exact hc.settled.at_edge C (List.mem_of_getElem? hC) dest type incoming hi q p P (hq ▸ hmem) hP
    | _ => cases hii

include h hs hf hc in
/-- Every value is there where it is used after inlining. -/
theorem Spliced.settled : f'.Settled where
  at_instruction _ _ _ _ _ hX' hl' hphi _ hk := h.settled_instruction hs hf hc hX' hl' hphi hk
  at_end _ _ _ _ hX' ht hr := h.settled_end hs hf hc hX' ht hr
  at_edge _ hX' _ _ _ hi' _ _ _ he hP' := h.settled_edge hs hf hc hX' hi' he hP'

/-! ## Types -/

/-- The values of the caller have the grades that they had. -/
theorem Shaped.has_splice (hf : f.Shaped) {γc : Grading} (hv : v ∈ f.operands) {g : Grade} (hg : γ.Has v g) :
    (γ.splice γc f.registers.size).Has v g := by
  cases v with
  | register r => exact (if_pos (hf.operand_lt hv)).trans hg
  | _ => exact hg

include hs in
/-- The values of the copy have the grades that those of the callee had. -/
theorem CallAt.has_copied (hf : f.Shaped) (hc : callee.Shaped) {γc : Grading} (hI : γ.interface = γc.interface)
    (hargs : List.Forall₂ γ.Has s.args γc.params) (hv : v ∈ callee.operands) {g : Grade} (hg : γc.Has v g) :
    (γ.splice γc f.registers.size).Has ((s.transplant f callee).value v) g := by
  cases v with
  | register r =>
    have hr : (s.transplant f callee).value (.register r) = .register (f.registers.size + r) := if_pos (hc.operand_lt hv)
    have hge : ¬f.registers.size + r < f.registers.size := by lia
    rw [hr]
    show (if _ then _ else _) = g
    rw [if_neg hge, Nat.add_sub_cancel_left]
    exact hg
  | parameter i =>
    obtain ⟨hi, hgi⟩ := List.getElem?_eq_some_iff.mp hg
    have hlt : i < s.args.length := hargs.length_eq ▸ hi
    have harg : (s.transplant f callee).value (.parameter i) = s.args[i] := by
      show s.args[i]?.getD _ = _
      rw [List.getElem?_eq_getElem hlt, Option.getD_some]
    rw [harg, ← hgi]
    exact hf.has_splice (hs.mem_operands_arg (List.getElem_mem hlt)) (hargs.get hlt hi)
  | global name =>
    obtain ⟨t, ht, rfl⟩ := hg
    exact ⟨t, hI ▸ ht, rfl⟩
  | _ => exact hg

/-- Bringing the result is typed. -/
theorem types_result (hdest : ∀ r, s.dest = some r → γ.register r = .datum s.ret)
    (hret : ∀ e ∈ s.returns f callee, γ.Has e.1 (.datum s.ret)) (hi : i ∈ s.result f callee) : γ.Types i := by
  obtain ⟨dest, hd, ⟨v, p, heq, rfl⟩ | rfl⟩ := result_cases hi
  · exact ⟨s.ret, hdest dest hd, hret _ (heq ▸ List.mem_singleton_self _)⟩
  · exact ⟨hdest dest hd, hret⟩

include h hs hf hc in
/-- The function is typed after inlining: the registers of the copy have the grades that they had in the callee. -/
theorem Spliced.typed : f'.Typed I := by
  obtain ⟨γ, hI, hsig, hp, hty, hte⟩ := hf.typed
  obtain ⟨γc, hIc, hsigc, -, htyc, htec⟩ := hc.typed
  have hIe := hI.trans hIc.symm
  obtain ⟨⟨grades, hgrades, hargs⟩, hdest, -⟩ := hty _ hs.mem_call
  rw [hI, hsigc, Option.some.injEq, Prod.mk.injEq] at hgrades
  obtain ⟨rfl, hret⟩ := hgrades
  have hold : ∀ {i}, i ∈ f.instructions → (γ.splice γc f.registers.size).Types i := by
    intro i hi
    rw [← i.mapOperands_id]
    exact (hty i hi).mapOperands rfl (fun _ _ _ h => h) (fun _ => rfl)
      (fun v hv g hg => hf.shaped.has_splice (mem_operands hi hv) hg) fun r hr => if_pos (hf.shaped.sized i hi r hr)
  have hcopy : ∀ {i}, i ∈ callee.instructions →
      (γ.splice γc f.registers.size).Types ((s.transplant f callee).instruction i) := by
    intro i hi
    have hty' : (γ.splice γc f.registers.size).Types
        ((i.mapOperands (s.transplant f callee).value).mapDest (f.registers.size + ·)) := by
      refine (htyc i hi).relabel (hIe ▸ rfl) (fun _ _ _ h => hIe ▸ h) (fun _ => rfl) (fun v hv g hg =>
        hs.has_copied hf.shaped hc.shaped hIe hargs (mem_operands hi hv) hg) fun r hr => ?_
      have hge : ¬f.registers.size + r < f.registers.size := by lia
      show (if _ then _ else _) = _
      rw [if_neg hge, Nat.add_sub_cancel_left]
    refine hty'.mapIncoming fun incoming e he => ?_
    obtain ⟨e', he', rfl⟩ := List.mem_map.mp he
    exact ⟨e', he', rfl⟩
  refine ⟨γ.splice γc f.registers.size, hI, h.name ▸ h.ret ▸ hsig, h.params ▸ hp, fun i' hi' => ?_, fun X' hX' t ht => ?_⟩
  · obtain ⟨x, X', hx, hi'⟩ := mem_instructions.mp hi'
    rcases h.origin hx hi' with ⟨X, i, hX, hi, rfl⟩ | ⟨-, r, t, hi, rfl⟩ | ⟨-, hi⟩ | ⟨-, hi⟩ | ⟨j, C, i, -, hC, hi, -, rfl⟩
    · refine (hold (mem_of_block? hX (hs.mem_of_own hX hi))).mapIncoming ?_
      intro incoming e he
      unfold Splice.edges at he
      split at he
      · obtain ⟨e', he', rfl⟩ := List.mem_map.mp he
        exact ⟨e', he', rfl⟩
      · exact ⟨e, he, rfl⟩
    · exact hcopy hi
    · refine types_result (fun r hr => ?_) (fun e he => ?_) hi
      · exact (if_pos (hf.shaped.sized _ hs.mem_call r hr)).trans (hdest r hr)
      · obtain ⟨j, C, w, hC, ht, hw, -⟩ := mem_returns.mp he
        rw [hw, ← hret]
        exact hs.has_copied hf.shaped hc.shaped hIe hargs (mem_operands_end hC ht (by simp [Terminator.operands]))
          (htec C (List.mem_of_getElem? hC) _ ht).2
    · exact hold (mem_of_block? hs.block (by simp [hs.instructions, hi]))
    · exact hcopy (mem_of_block? hC hi)
  · obtain ⟨x, hx⟩ := exists_block? hX'
    rw [h.ret]
    have hown : ∀ {x : BlockId} {X}, f.block? x = some X → X.terminator = some t →
        (γ.splice γc f.registers.size).TypesEnd f.ret t := by
      intro x X hX ht
      rw [← t.mapOperands_id]
      exact (hte X (List.mem_of_getElem? hX) t ht).mapOperands fun v hv g hg => hf.shaped.has_splice (mem_operands_end hX ht hv) hg
    rcases h.block?_cases hx with ⟨X, hX, rfl⟩ | ⟨rfl, -, hterm⟩ | ⟨j, C, rfl, hC, -, hterm⟩
    · by_cases hxs : x = s.block
      · obtain rfl : .jump (f.blocks.length + 1 + callee.entry) = t := by simpa [Splice.ownBlock, hxs] using ht
        trivial
      · exact hown hX (by simpa [Splice.ownBlock, hxs] using ht)
    · exact hown hs.block (hs.terminator.trans (hterm.symm.trans ht))
    · obtain rfl := Option.some.inj (hterm.symm.trans ht)
      cases hCt : C.terminator with
      | none => trivial
      | some t =>
        cases t with
        | branch cond yes no =>
          exact hs.has_copied hf.shaped hc.shaped hIe hargs (mem_operands_end hC hCt (by simp [Terminator.operands]))
            (htec C (List.mem_of_getElem? hC) _ hCt)
        | _ => trivial

include h hs hf hc in
/-- No run comes to a dead end after inlining. -/
theorem Spliced.no_dead_end (hr : f'.Reachable x) (hX' : f'.block? x = some X') : X'.terminator ≠ some .unreachable := by
  have hr : f'.Reaches (·.Any fun _ => False) x := hr.mono fun _ _ ⟨_, _, hno⟩ => hno
  have hcaller := h.reaches_caller hs hf.shaped (fun _ _ hno => hno) (fun hno => hno.elim) hr
  have hcallee := h.reaches_callee hs hf.shaped (p := fun _ => False) (fun _ _ hno => hno.elim) hr
  intro ht
  rcases h.block?_cases hX' with ⟨X, hX, rfl⟩ | ⟨rfl, -, hterm⟩ | ⟨j, C, rfl, hC, -, hterm⟩
  · by_cases hxs : x = s.block
    · simp [Splice.ownBlock, hxs] at ht
    · refine hf.no_dead_end x X ((hcaller.1 (lt_of_block? hX)).mono fun _ _ hno => hno.elim) hX ?_
      simpa [Splice.ownBlock, hxs] using ht
  · refine hf.no_dead_end s.block b ((hcaller.2 (Nat.le_refl _)).1.mono fun _ _ hno => hno.elim) hs.block ?_
    exact hs.terminator.trans (hterm.symm.trans ht)
  · obtain ⟨t, hCt⟩ := Option.isSome_iff_exists.mp (hc.shaped.ended C (List.mem_of_getElem? hC))
    refine hc.no_dead_end j C ((hcallee j rfl).mono fun _ _ hno => hno.elim) hC ?_
    rw [hCt] at hterm ⊢
    have := Option.some.inj (hterm.symm.trans ht)
    cases t <;> simp_all [Transplant.terminator, Terminator.mapOperands, Terminator.mapTargets]

include h hs hf hc in
/-- The caller is well formed after inlining. -/
theorem Spliced.wellFormed : f'.WellFormed I where
  shaped := h.shaped hs hf hc
  settled := h.settled hs hf hc
  typed := h.typed hs hf hc
  no_dead_end _ _ hr hX' := h.no_dead_end hs hf hc hr hX'

end

end Function

end Ember.IR
