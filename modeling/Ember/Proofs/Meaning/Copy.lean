import Ember.Proofs.Meaning.Caller

/-!
# The copy of an inlined function

While the original run is in the callee, the run after inlining is in the copy of the callee, in the frame of the caller
(`Splice.Copies`). The callee allocates its slots anew with every call; the copy has had its slots from the start of the caller, and finds
in them what an earlier round left. So the cells of a slot stand for each other from the first store on (`Links`): nothing is loaded from
a slot before, since the callee is well formed.
-/

namespace Ember

open IR

/-! ## Slots -/

/-- The slots of the callee in its frame `h` next to those of the copy in the frame `g`. -/
structure Links (callee : Function) (offset : Nat) (P : Cells) (h : Frame) (memory : Memory) (g : Frame) (memory' : Memory) : Prop where
  copy : ∀ r, callee.IsSlot r → ∃ c, g.registers[offset + r]? = some (.pointer c) ∧ c < memory'.size ∧
    ∀ a, P a c → h.registers[r]? = some (.pointer a)
  own : ∀ r a, callee.IsSlot r → h.registers[r]? = some (.pointer a) → a < memory.size ∧
    ∀ b, P a b → g.registers[offset + r]? = some (.pointer b)
  unset : ∀ r t, .alloca r t ∈ h.pending → ∀ a, h.registers[r]? ≠ some (.pointer a)
  set : ∀ r, callee.IsSlot r → h.Knows (.set r) → ∃ a, h.registers[r]? = some (.pointer a)
  filled : ∀ r a, callee.IsSlot r → h.Knows (.filled r) → h.registers[r]? = some (.pointer a) → ∃ b, P a b
  apart : ∀ r q a, callee.IsSlot r → callee.IsSlot q → h.registers[r]? = some (.pointer a) → h.registers[q]? = some (.pointer a) → r = q
  apart' : ∀ r q c, callee.IsSlot r → callee.IsSlot q → g.registers[offset + r]? = some (.pointer c) →
    g.registers[offset + q]? = some (.pointer c) → r = q

namespace Links

variable {callee : Function} {offset : Nat} {P P₁ : Cells} {h h₁ g g₁ : Frame} {memory memory' memory₁ memory₁' : Memory}

/-- A step that leaves the registers of the slots, and links none but their cells. -/
theorem step (hl : Links callee offset P h memory g memory') (hsize : memory.size ≤ memory₁.size) (hsize' : memory'.size ≤ memory₁'.size)
    (hregisters : ∀ r, callee.IsSlot r → h₁.registers[r]? = h.registers[r]?)
    (hregisters' : ∀ r, callee.IsSlot r → g₁.registers[offset + r]? = g.registers[offset + r]?)
    (hpending : ∀ r t, .alloca r t ∈ h₁.pending → .alloca r t ∈ h.pending ∧ callee.IsSlot r)
    (hset : ∀ r, callee.IsSlot r → h₁.Knows (.set r) → h.Knows (.set r))
    (hfilled : ∀ r a, callee.IsSlot r → h₁.Knows (.filled r) → h.registers[r]? = some (.pointer a) → ∃ b, P₁ a b)
    (hnew : ∀ a b, P₁ a b → P a b ∨ ∃ r, callee.IsSlot r ∧ h.registers[r]? = some (.pointer a) ∧
      g.registers[offset + r]? = some (.pointer b)) : Links callee offset P₁ h₁ memory₁ g₁ memory₁' where
  copy r hr := by
    obtain ⟨c, hc, hlt, hstands⟩ := hl.copy r hr
    refine ⟨c, (hregisters' r hr).trans hc, Nat.lt_of_lt_of_le hlt hsize', fun a ha => (hregisters r hr).trans ?_⟩
    rcases hnew a c ha with ha | ⟨q, hq, hqa, hqc⟩
    · exact hstands a ha
    · obtain rfl := hl.apart' q r c hq hr hqc hc
      exact hqa
  own r a hr ha := by
    rw [hregisters r hr] at ha
    obtain ⟨hlt, hstands⟩ := hl.own r a hr ha
    refine ⟨Nat.lt_of_lt_of_le hlt hsize, fun b hb => (hregisters' r hr).trans ?_⟩
    rcases hnew a b hb with hb | ⟨q, hq, hqa, hqb⟩
    · exact hstands b hb
    · obtain rfl := hl.apart q r a hq hr hqa ha
      exact hqb
  unset r t ht := by
    obtain ⟨ht, hr⟩ := hpending r t ht
    rw [hregisters r hr]
    exact hl.unset r t ht
  set r hr hknows := by
    obtain ⟨a, ha⟩ := hl.set r hr (hset r hr hknows)
    exact ⟨a, (hregisters r hr).trans ha⟩
  filled r a hr hknows ha := hfilled r a hr hknows ((hregisters r hr).symm.trans ha)
  apart r q a hr hq hra hqa := hl.apart r q a hr hq ((hregisters r hr).symm.trans hra) ((hregisters q hq).symm.trans hqa)
  apart' r q c hr hq hrc hqc := hl.apart' r q c hr hq ((hregisters' r hr).symm.trans hrc) ((hregisters' q hq).symm.trans hqc)

/-- The callee allocates a slot. -/
theorem alloca (hl : Links callee offset P h memory g memory') (hfresh : ∀ b, ¬P memory.size b) {r : Register} {t : Ty}
    {rest : List Instruction} (hp : h.pending = .alloca r t :: rest) (hr : callee.IsSlot r) (hlt : r < h.registers.size)
    (hrest : ∀ q t, .alloca q t ∈ rest → q ≠ r)
    (hset : ∀ q, ((h.behind rest).put (some r) (.pointer memory.size)).Knows (.set q) → q = r ∨ h.Knows (.set q))
    (hfilled : ∀ q, ¬((h.behind rest).put (some r) (.pointer memory.size)).Knows (.filled q)) :
    Links callee offset P ((h.behind rest).put (some r) (.pointer memory.size)) (memory.push .undef) g memory' := by
  have hunset := hl.unset r t (by simp [hp])
  have hself : ((h.behind rest).put (some r) (.pointer memory.size)).registers[r]? = some (.pointer memory.size) :=
    Array.getElem?_setIfInBounds_self_of_lt hlt
  have hother : ∀ q, q ≠ r → ((h.behind rest).put (some r) (.pointer memory.size)).registers[q]? = h.registers[q]? :=
    fun q hq => Array.getElem?_setIfInBounds_ne (Ne.symm hq)
  -- the new cell is none of the others
  have hnew : ∀ q, callee.IsSlot q → ((h.behind rest).put (some r) (.pointer memory.size)).registers[q]? = some (.pointer memory.size) →
      q = r := by
    intro q hq hcell
    by_contra hne
    rw [hother q hne] at hcell
    exact Nat.lt_irrefl _ (hl.own q _ hq hcell).1
  refine ⟨fun q hq => ?_, fun q a hq ha => ?_, fun q t' ht' a => ?_, fun q hq hknows => ?_, fun q a _ hknows => absurd hknows (hfilled q),
    fun q q' a hq hq' ha ha' => ?_, hl.apart'⟩
  · obtain ⟨c, hc, hclt, hstands⟩ := hl.copy q hq
    refine ⟨c, hc, hclt, fun a ha => ?_⟩
    have hne : q ≠ r := by
      rintro rfl
      exact hunset a (hstands a ha)
    rw [hother q hne]
    exact hstands a ha
  · rw [Array.size_push]
    by_cases hne : q = r
    · subst hne
      cases hself.symm.trans ha
      exact ⟨Nat.lt_succ_self _, fun b hb => absurd hb (hfresh b)⟩
    · rw [hother q hne] at ha
      exact ⟨Nat.lt_succ_of_lt (hl.own q a hq ha).1, (hl.own q a hq ha).2⟩
  · rw [Frame.pending_put] at ht'
    rw [hother q (hrest q t' ht')]
    exact hl.unset q t' (by rw [hp]; exact List.mem_cons_of_mem _ ht') a
  · by_cases hne : q = r
    · rw [hne]
      exact ⟨_, hself⟩
    · rw [hother q hne]
      exact hl.set q hq ((hset q hknows).resolve_left hne)
  · by_cases hne : q = r
    · subst hne
      cases hself.symm.trans ha
      exact (hnew q' hq' ha').symm
    · by_cases hne' : q' = r
      · subst hne'
        cases hself.symm.trans ha'
        exact hnew q hq ha
      · rw [hother q hne] at ha
        rw [hother q' hne'] at ha'
        exact hl.apart q q' a hq hq' ha ha'

end Links

/-- Behind slots that are being allocated nothing has been stored. -/
theorem Frame.Sound.not_knows_filled {I : Interface} {m : Module} {h : Frame} {memory : Memory} (hm : m.WellFormed I)
    (hsound : h.Sound I m memory) {r : Register} {t : Ty} {rest : List Instruction} (hp : h.pending = .alloca r t :: rest) (q : Register) :
    ¬h.Knows (.filled q) := by
  rintro ⟨B, before, hat, hknows⟩
  have hshaped := (hsound.wellFormed hm).shaped
  have hfirst := hshaped.slotsFirst hat.block
  rw [hat.instructions, hp, Function.slotsFirst_iff, List.pairwise_append] at hfirst
  have hallocas : ∀ i ∈ before, i.isAlloca = true := fun i hi => hfirst.2.2 i hi _ List.mem_cons_self rfl
  have hblock : h.block = h.function.entry := by
    by_contra hne
    cases hshaped.isAlloca_outside_entry hat.block hne (i := .alloca r t) (by simp [hat.instructions, hp])
  rcases hknows with (⟨i, hi, value, type, rfl⟩ | hno) | ⟨-, p, -, hprev, -⟩
  · cases hallocas _ hi
  · exact hno (hblock ▸ .entry)
  · obtain ⟨P, hP, hs⟩ := hsound.precedes hprev
    exact hshaped.entry_free P (List.mem_of_getElem? hP) (hblock ▸ hs)

/-- Slots are set by allocas only. -/
theorem IR.Function.Shaped.not_isSlot {F : Function} (hF : F.Shaped) {i : Instruction} (hi : i ∈ F.instructions)
    (halloca : i.isAlloca = false) {r : Register} (hr : i.dest? = some r) : ¬F.IsSlot r := by
  rintro ⟨t, ht⟩
  obtain rfl := eq_of_nodup_filterMap hF.once hi ht hr rfl
  cases halloca

namespace IR.Splice

variable (s : Splice) (f callee f' : Function)

/-! ## The copy next to the callee -/

/-- The frame `g` of the caller is in the copy of the callee, where the callee is in the frame `h`. -/
structure Copies (m' : Module) (P : Cells) (h : Frame) (memory : Memory) (g : Frame) (memory' : Memory) : Prop where
  function : h.function = callee
  function' : g.function = f'
  size' : g.registers.size = f.registers.size + callee.registers.size
  block : g.block = f.blocks.length + 1 + h.block
  previous : ∀ p, h.previous = some p → g.previous = some (f.blocks.length + 1 + p)
  pending : g.pending = (h.pending.filter fun i => !i.isAlloca).map (s.transplant f callee).instruction
  args : List.Forall₂ (fun d v => ∃ d', g.value? m' v = some d' ∧ d.Alike P d') h.args s.args
  registers : ∀ r, ¬callee.IsSlot r → h.Knows (.set r) → ∀ d, h.registers[r]? = some d → g.registers[f.registers.size + r]? = some d
  links : Links callee f.registers.size P h memory g memory'

/-- What is not the copy's stays as it is while the copy runs. -/
structure Spares (g g₁ : Frame) : Prop where
  function : g₁.function = g.function
  args : g₁.args = g.args
  size : g₁.registers.size = g.registers.size
  own : ∀ r, r < f.registers.size → g₁.registers[r]? = g.registers[r]?
  slot : ∀ r, callee.IsSlot r → g₁.registers[f.registers.size + r]? = g.registers[f.registers.size + r]?

variable {s f callee f'}

theorem Spares.refl (g : Frame) : Spares f callee g g :=
  ⟨rfl, rfl, rfl, fun _ _ => rfl, fun _ _ => rfl⟩

theorem Spares.trans {g g₁ g₂ : Frame} (h : Spares f callee g g₁) (h' : Spares f callee g₁ g₂) : Spares f callee g g₂ where
  function := h'.function.trans h.function
  args := h'.args.trans h.args
  size := h'.size.trans h.size
  own r hr := (h'.own r hr).trans (h.own r hr)
  slot r hr := (h'.slot r hr).trans (h.slot r hr)

/-- Operands of the caller keep their values. -/
theorem Spares.value {g g₁ : Frame} (h : Spares f callee g g₁) (hf : f.Shaped) {m : Module} {v : Value} (hv : v ∈ f.operands) :
    g₁.value? m v = g.value? m v := by
  cases v with
  | register r => exact h.own r (hf.operand_lt hv)
  | parameter i => exact congrArg (·[i]?) h.args
  | _ => rfl

/-- The arguments of the call keep their values. -/
theorem Spares.args_alike {g g₁ : Frame} (h : Spares f callee g g₁) (hf : f.Shaped) {b : Block} (hs : f.CallAt callee s b) {m : Module}
    {P P₁ : Cells} (hle : P ≤ P₁) {args : List Datum}
    (hargs : List.Forall₂ (fun d v => ∃ d', g.value? m v = some d' ∧ d.Alike P d') args s.args) :
    List.Forall₂ (fun d v => ∃ d', g₁.value? m v = some d' ∧ d.Alike P₁ d') args s.args := by
  refine List.forall₂_iff_get.mpr ⟨hargs.length_eq, fun n hn hn' => ?_⟩
  obtain ⟨d', hd', halike⟩ := hargs.get hn hn'
  exact ⟨d', (h.value hf (hs.mem_operands_arg (List.getElem_mem hn'))).trans hd', halike.mono hle⟩

variable {I : Interface} {m m' : Module} {b : Block} {P P₁ : Cells} {h h₁ g g₁ : Frame} {memory memory' memory₁ memory₁' : Memory}
  {d : Datum}

section

variable (hm : m.WellFormed I) (hglobals : m'.globals = m.globals) (hf : f.Shaped) (hs : f.CallAt callee s b)
  (hsplice : f.Spliced callee s f') (hsound : h.Sound I m memory) (hcopy : Copies s f callee f' m' P h memory g memory')
  (hmem : Mirrored m P memory memory')

include hm hcopy hsound in
theorem Copies.wellFormed : callee.WellFormed I :=
  hcopy.function ▸ hsound.wellFormed hm

include hm hglobals hcopy hsound hmem in
/-- Operands of the copy have the values of those of the callee. -/
theorem Copies.value {v : Value} (hv : v ∈ callee.operands) (hset : ∀ r, v = .register r → h.Knows (.set r)) {e : Datum}
    (hlink : ∀ r a, v = .register r → callee.IsSlot r → e = .pointer a → ∃ b, P a b) (he : h.value? m v = some e) :
    ∃ e', g.value? m' ((s.transplant f callee).value v) = some e' ∧ e.Alike P e' := by
  have hc := hcopy.wellFormed hm hsound
  cases v with
  | register r =>
    have hr : (s.transplant f callee).value (.register r) = .register (f.registers.size + r) := if_pos (hc.shaped.operand_lt hv)
    rw [hr]
    by_cases hslot : callee.IsSlot r
    · obtain ⟨a, ha⟩ := hcopy.links.set r hslot (hset r rfl)
      cases ha.symm.trans he
      obtain ⟨b, hab⟩ := hlink r a rfl hslot rfl
      exact ⟨.pointer b, (hcopy.links.own r a hslot ha).2 b hab, .pointer hab⟩
    · refine ⟨e, hcopy.registers r hslot (hset r rfl) e he, .plain fun cell hcell => hslot ?_⟩
      rw [← hcopy.function] at hv ⊢
      exact hsound.isSlot hv (hcell ▸ he)
  | constant c =>
    cases he
    exact ⟨_, rfl, .plain (Datum.plain_constant c)⟩
  | parameter i =>
    obtain ⟨hi, rfl⟩ := List.getElem?_eq_some_iff.mp he
    have hi' : i < s.args.length := hcopy.args.length_eq ▸ hi
    have harg : (s.transplant f callee).value (.parameter i) = s.args[i] := by
      show s.args[i]?.getD _ = _
      rw [List.getElem?_eq_getElem hi', Option.getD_some]
    rw [harg]
    exact hcopy.args.get hi hi'
  | global name =>
    obtain ⟨cell, hcell, rfl⟩ := Option.map_eq_some_iff.mp he
    exact ⟨.pointer cell, by simp [Function.Transplant.value, Frame.value?, globalCell?_congr hglobals, hcell],
      .pointer (hmem.globals name cell hcell)⟩
  | function name => cases he
  | undef t | unit =>
    cases he
    exact ⟨_, rfl, .plain fun _ h => Datum.noConfusion h⟩

variable {i : Instruction} {rest : List Instruction}

include hm hglobals hcopy hsound hmem in
/-- An instruction computes in the copy what it computes in the callee. The first store to a slot links its cells. -/
theorem Copies.computes (hp : h.pending = i :: rest) (hi : i.isAlloca = false) (hd : h.Computes m memory i d memory₁) :
    ∃ P₁ memory₁', P ≤ P₁ ∧ g.Computes m' memory' ((s.transplant f callee).instruction i) d memory₁' ∧ Mirrored m P₁ memory₁ memory₁' ∧
      (∀ a b, P₁ a b → P a b ∨ ∃ r, callee.IsSlot r ∧ h.registers[r]? = some (.pointer a) ∧
        g.registers[f.registers.size + r]? = some (.pointer b)) ∧
      ∀ r a, callee.IsSlot r → i.Gives (.filled r) → h.registers[r]? = some (.pointer a) → ∃ b, P₁ a b := by
  have hin : i ∈ callee.instructions := hcopy.function ▸ hsound.mem_instructions (by simp [hp])
  have hop : ∀ v, h.Uses i v → v ∈ callee.operands := fun v hv => Function.mem_operands hin hv.mem_operands
  by_cases hfirst : ∃ r value type a, i = .store (.register r) value type ∧ callee.IsSlot r ∧ h.registers[r]? = some (.pointer a) ∧
      ∀ b, ¬P a b
  · obtain ⟨r, value, type, a, rfl, hr, ha, hno⟩ := hfirst
    cases hd with
    | @store _ _ _ cell e hcell hlt he =>
      cases ha.symm.trans hcell
      obtain ⟨c, hc, hlt', hstands⟩ := hcopy.links.copy r hr
      have hnoc : ∀ x, ¬P x c := fun x hx => by
        cases ha.symm.trans (hstands x hx)
        exact hno c hx
      have hplain := hsound.plain_stored hp he
      obtain ⟨e', he', halike⟩ : ∃ e', g.value? m' ((s.transplant f callee).value value) = some e' ∧ e.Alike P e' := by
        refine hcopy.value hm hglobals hsound hmem (hop value (by simp [Frame.Uses, Instruction.operands])) (fun q hq => ?_)
          (fun _ x _ _ hx => absurd hx (hplain x)) he
        exact hsound.knows_used hm hp (by simp [Frame.Uses, Instruction.operands, hq])
      obtain rfl := halike.eq_of_plain hplain
      have hpointer : (s.transplant f callee).value (.register r) = .register (f.registers.size + r) :=
        if_pos ((hcopy.wellFormed hm hsound).shaped.operand_lt (hop _ (by simp [Frame.Uses, Instruction.operands])))
      refine ⟨P.add a c, memory'.setIfInBounds c e', P.le_add a c, ?_, hmem.link hno hnoc hlt hlt' e', ?_, ?_⟩
      · exact .store (by rw [hpointer]; exact hc) hlt' he'
      · rintro x y (hxy | ⟨rfl, rfl⟩)
        · exact .inl hxy
        · exact .inr ⟨r, hr, ha, hc⟩
      · rintro q x - ⟨value', type', heq⟩ hx
        cases heq
        cases ha.symm.trans hx
        exact ⟨c, .inr ⟨rfl, rfl⟩⟩
  · have hlinked : ∀ r value type a, i = .store (.register r) value type → callee.IsSlot r → h.registers[r]? = some (.pointer a) →
        ∃ b, P a b := fun r value type a hstore hr ha =>
      by_contra fun hno => hfirst ⟨r, value, type, a, hstore, hr, ha, fun b hb => hno ⟨b, hb⟩⟩
    obtain ⟨memory₁', hd', hmem'⟩ : ∃ memory₁', g.Computes m' memory' (i.rename (s.transplant f callee).value (f.registers.size + ·)
        (f.blocks.length + 1 + ·)) d memory₁' ∧ Mirrored m P memory₁ memory₁' := by
      refine hd.rename hm hsound hp hi (fun v hv e he => ?_) (fun _ _ _ p _ hprev => ⟨hcopy.previous p hprev, fun _ _ => Nat.add_left_cancel⟩)
        hmem
      refine hcopy.value hm hglobals hsound hmem (hop v hv) (fun r hr => hsound.knows_used hm hp (hr ▸ hv)) (fun r a hr hslot ha => ?_) he
      subst hr ha
      by_cases hload : ∃ dest pointer type, i = .load dest pointer type
      · obtain ⟨dest, pointer, type, rfl⟩ := hload
        obtain rfl : .register r = pointer := List.mem_singleton.mp hv
        refine hcopy.links.filled r a hslot (hsound.knows_needed hm hp rfl ?_) he
        exact ⟨hcopy.function ▸ hslot, List.mem_singleton_self _⟩
      · by_cases hstore : ∃ pointer value type, i = .store pointer value type
        · obtain ⟨pointer, value, type, rfl⟩ := hstore
          rcases List.mem_pair.mp hv with rfl | rfl
          · exact hlinked r value type a rfl hslot he
          · exact absurd rfl (hsound.plain_stored hp he a)
        · refine absurd rfl (hsound.plain_used hm hp hi hd (fun x p t hx => hload ⟨x, p, t, hx⟩) (fun p v t hx => hstore ⟨p, v, t, hx⟩) hv
            he a)
    refine ⟨P, memory₁', le_refl P, hd', hmem', fun _ _ => .inl, ?_⟩
    rintro r a hr ⟨value, type, rfl⟩ ha
    exact hlinked r value type a rfl hr ha

include hcopy in
/-- What is left to do of the copy, behind an instruction that is no alloca. -/
theorem Copies.pending_cons (hp : h.pending = i :: rest) (hi : i.isAlloca = false) :
    g.pending = (s.transplant f callee).instruction i :: (s.transplant f callee).copy rest := by
  rw [hcopy.pending, hp]
  simp [hi]

include hm hf hs hcopy hsound in
/-- The same result goes to the register of the callee and to that of the copy. -/
theorem Copies.put (hp : h.pending = i :: rest) (hi : i.isAlloca = false) (hle : P ≤ P₁)
    (hsize : memory.size ≤ memory₁.size) (hsize' : memory'.size ≤ memory₁'.size)
    (hnew : ∀ a b, P₁ a b → P a b ∨ ∃ r, callee.IsSlot r ∧ h.registers[r]? = some (.pointer a) ∧
      g.registers[f.registers.size + r]? = some (.pointer b))
    (hfills : ∀ r a, callee.IsSlot r → i.Gives (.filled r) → h.registers[r]? = some (.pointer a) → ∃ b, P₁ a b) (d : Datum) :
    let rest' := (s.transplant f callee).copy rest
    let g₁ := (g.behind rest').put ((s.transplant f callee).instruction i).dest? d
    Copies s f callee f' m' P₁ ((h.behind rest).put i.dest? d) memory₁ g₁ memory₁' ∧ Spares f callee g g₁ := by
  intro rest' g₁
  have hc := hcopy.wellFormed hm hsound
  have hin : i ∈ callee.instructions := hcopy.function ▸ hsound.mem_instructions (by simp [hp])
  obtain ⟨B, before, hat⟩ := hsound.place
  have hdest' : ((s.transplant f callee).instruction i).dest? = i.dest?.map (f.registers.size + ·) := Function.dest?_transplanted _ i
  -- the two registers that are set, and those that are not
  have hother : ∀ r, i.dest? ≠ some r → ((h.behind rest).put i.dest? d).registers[r]? = h.registers[r]? ∧
      g₁.registers[f.registers.size + r]? = g.registers[f.registers.size + r]? := by
    intro r hr
    simp only [g₁, hdest']
    cases hq : i.dest? with
    | none => exact ⟨rfl, rfl⟩
    | some q =>
      have hne : q ≠ r := fun heq => hr (heq ▸ hq)
      exact ⟨Array.getElem?_setIfInBounds_ne hne, Array.getElem?_setIfInBounds_ne fun heq => hne (Nat.add_left_cancel heq)⟩
  have hsame : ∀ r, i.dest? = some r → g₁.registers[f.registers.size + r]? = some d ∧
      ∀ e, ((h.behind rest).put i.dest? d).registers[r]? = some e → e = d := by
    intro r hr
    have hlt : r < callee.registers.size := hc.shaped.sized i hin r hr
    have hlt' : r < h.registers.size := by rwa [hsound.size_registers, hcopy.function]
    simp only [g₁, hdest', hr]
    refine ⟨Array.getElem?_setIfInBounds_self_of_lt (by rw [Frame.behind, hcopy.size']; exact Nat.add_lt_add_left hlt _), fun e he => ?_⟩
    rw [Frame.put, Frame.behind, Array.getElem?_setIfInBounds_self_of_lt hlt'] at he
    exact (Option.some.inj he).symm
  have hslot : ∀ r, callee.IsSlot r → i.dest? ≠ some r := fun r hr hdest => hc.shaped.not_isSlot hin hi hdest hr
  have hspares : Spares f callee g g₁ := by
    refine ⟨by simp [g₁, Frame.behind], by simp [g₁, Frame.behind], ?_, fun r hr => ?_, fun r hr => (hother r (hslot r hr)).2⟩
    · simp only [g₁]
      cases ((s.transplant f callee).instruction i).dest? <;> simp [Frame.put, Frame.behind]
    · simp only [g₁, hdest']
      cases i.dest? with
      | none => rfl
      | some q => exact Array.getElem?_setIfInBounds_ne (Nat.ne_of_gt (Nat.lt_of_lt_of_le hr (Nat.le_add_right _ _)))
  refine ⟨⟨?_, ?_, hspares.size.trans hcopy.size', ?_, ?_, ?_, ?_, fun r hr hknows e he => ?_, ?_⟩, hspares⟩
  · simpa [Frame.behind] using hcopy.function
  · simpa [g₁, Frame.behind] using hcopy.function'
  · simpa [g₁, Frame.behind] using hcopy.block
  · simpa [g₁, Frame.behind] using hcopy.previous
  · simp [g₁, rest', Frame.behind]
  · rw [Frame.args_put]
    exact hspares.args_alike hf hs hle hcopy.args
  · by_cases hdest : i.dest? = some r
    · obtain rfl := (hsame r hdest).2 e he
      exact (hsame r hdest).1
    · rw [(hother r hdest).1] at he
      rw [(hother r hdest).2]
      exact hcopy.registers r hr ((Frame.Knows.of_behind hat hp hknows).resolve_left hdest) e he
  · refine hcopy.links.step hsize hsize' (fun r hr => (hother r (hslot r hr)).1) hspares.slot (fun r t ht => ?_)
      (fun r hr hknows => ?_) (fun r a hr hknows ha => ?_) hnew
    · have ht' : .alloca r t ∈ h.pending := by
        rw [Frame.pending_put] at ht
        rw [hp]
        exact List.mem_cons_of_mem _ ht
      exact ⟨ht', t, hcopy.function ▸ hsound.mem_instructions ht'⟩
    · exact (Frame.Knows.of_behind hat hp hknows).resolve_left (hslot r hr)
    · rcases Frame.Knows.of_behind hat hp hknows with hgives | hknows
      · exact hfills r a hr hgives ha
      · obtain ⟨b, hab⟩ := hcopy.links.filled r a hr hknows ha
        exact ⟨b, hle a b hab⟩

include hm hcopy hsound hmem in
/-- The callee allocates a slot; the copy has it. -/
theorem Copies.alloca {r : Register} {t : Ty} (hp : h.pending = .alloca r t :: rest) :
    Copies s f callee f' m' P ((h.behind rest).put (some r) (.pointer memory.size)) (memory.push .undef) g memory' := by
  have hc := hcopy.wellFormed hm hsound
  have hin : .alloca r t ∈ callee.instructions := hcopy.function ▸ hsound.mem_instructions (by simp [hp])
  have hslot : callee.IsSlot r := ⟨t, hin⟩
  obtain ⟨B, before, hat⟩ := hsound.place
  have hlt : r < h.registers.size := by
    rw [hsound.size_registers, hcopy.function]
    exact hc.shaped.sized _ hin r rfl
  have hrest : ∀ q t', .alloca q t' ∈ rest → q ≠ r := by
    rintro q t' ht' rfl
    have hB : B ∈ callee.blocks := hcopy.function ▸ List.mem_of_getElem? hat.block
    have hnodup := hc.shaped.once_block hB
    rw [hat.instructions, hp, List.filterMap_append] at hnodup
    have hcons : (q :: rest.filterMap (·.dest?)).Nodup := hnodup.of_append_right
    exact (List.nodup_cons.mp hcons).1 (List.mem_filterMap.mpr ⟨_, ht', rfl⟩)
  have hnofill : ∀ q, ¬((h.behind rest).put (some r) (.pointer memory.size)).Knows (.filled q) := fun q hknows => by
    rcases Frame.Knows.of_behind hat hp hknows with ⟨value, type, hgives⟩ | hknows
    · cases hgives
    · exact hsound.not_knows_filled hm hp q hknows
  refine ⟨?_, hcopy.function', hcopy.size', ?_, ?_, ?_, ?_, fun q hq hknows e he => ?_, ?_⟩
  · simpa [Frame.behind] using hcopy.function
  · simpa [Frame.behind] using hcopy.block
  · simpa [Frame.behind] using hcopy.previous
  · rw [hcopy.pending, hp]
    simp [Frame.behind, Instruction.isAlloca]
  · simpa [Frame.behind] using hcopy.args
  · have hne : r ≠ q := by
      rintro rfl
      exact hq hslot
    rw [Frame.put, Frame.behind, Array.getElem?_setIfInBounds_ne hne] at he
    refine hcopy.registers q hq ((Frame.Knows.of_behind hat hp hknows).resolve_left fun hgives => hne ?_) e he
    exact Option.some.inj hgives
  · refine hcopy.links.alloca (fun b hb => Nat.lt_irrefl _ (hmem.lt_left hb)) hp hslot hlt hrest (fun q hknows => ?_) hnofill
    rcases Frame.Knows.of_behind hat hp hknows with hgives | hknows
    · exact .inl (Option.some.inj hgives).symm
    · exact .inr hknows

include hm hglobals hcopy hsound hmem in
/-- The end of a block of the copy leads where that of the block of the callee does. -/
theorem Copies.leads {A : Block} {id : BlockId} (hp : h.pending = []) (hA : h.function.block? h.block = some A)
    (hleads : h.Leads m A.terminator id) :
    g.Leads m' (some ((s.transplant f callee).terminator A.terminator)) (f.blocks.length + 1 + id) := by
  cases ht : A.terminator with
  | none =>
    rw [ht] at hleads
    cases hleads
  | some t =>
    rw [ht] at hleads
    cases t with
    | jump target =>
      cases hleads
      rfl
    | branch cond yes no =>
      obtain ⟨c, n, hc, hn, rfl⟩ := hleads
      have hcond : cond ∈ callee.operands := by
        rw [← hcopy.function]
        exact Function.mem_operands_end hA ht (by simp [Terminator.operands])
      obtain ⟨e, he, halike⟩ := hcopy.value hm hglobals hsound hmem hcond
        (fun r hr => hsound.knows_end hm hp hA ht (by simp [Terminator.operands, hr])) (fun _ _ _ _ hx => Datum.noConfusion hx) hc
      rw [halike.eq_of_plain (Datum.plain_constant _)] at he
      refine ⟨c, n, he, hn, ?_⟩
      show f.blocks.length + 1 + _ = _
      split <;> rfl
    | ret value => cases value <;> cases hleads
    | unreachable => cases hleads

include hcopy in
theorem Copies.pending_nil (hp : h.pending = []) : g.pending = [] := by
  rw [hcopy.pending, hp]
  rfl

include hsplice hcopy in
/-- The copy is in the copy of a block, and ends as it does. -/
theorem Copies.block_copied {A : Block} (hA : h.function.block? h.block = some A) :
    ∃ A', g.function.block? g.block = some A' ∧ A'.terminator = some ((s.transplant f callee).terminator A.terminator) := by
  rw [hcopy.function] at hA
  obtain ⟨label, hcopied⟩ := hsplice.copied h.block A hA
  exact ⟨_, by rw [hcopy.function', hcopy.block]; exact hcopied, rfl⟩

include hm hf hs hsplice hcopy hsound in
/-- The copy goes to the copy of a block. -/
theorem Copies.goto {A B : Block} {id : BlockId} (hp : h.pending = []) (hA : h.function.block? h.block = some A)
    (hid : id ∈ A.successors) (hB : h.function.block? id = some B) : ∃ B', f'.block? (f.blocks.length + 1 + id) = some B' ∧
      Copies s f callee f' m' P (h.goto id B) memory (g.goto (f.blocks.length + 1 + id) B') memory' ∧
      Spares f callee g (g.goto (f.blocks.length + 1 + id) B') := by
  have hc := hcopy.wellFormed hm hsound
  have hB' := hB
  rw [hcopy.function] at hB'
  obtain ⟨label, hcopied⟩ := hsplice.copied id B hB'
  have hspares : ∀ B', Spares f callee g (g.goto (f.blocks.length + 1 + id) B') := fun _ =>
    ⟨rfl, rfl, rfl, fun _ _ => rfl, fun _ _ => rfl⟩
  -- only the entry has slots, and nothing leads to it
  have hne : id ≠ callee.entry := by
    rintro rfl
    rw [hcopy.function] at hA
    exact hc.shaped.entry_free A (List.mem_of_getElem? hA) hid
  have hnoalloca : ∀ r t, .alloca r t ∉ B.instructions := by
    intro r t ht
    cases hc.shaped.isAlloca_outside_entry hB' hne ht
  refine ⟨_, hcopied, ⟨hcopy.function, hcopy.function', hcopy.size', rfl, ?_, rfl, ?_, fun r hr hknows => ?_, ?_⟩, hspares _⟩
  · rintro p hp
    cases hp
    exact congrArg some hcopy.block
  · exact (hspares _).args_alike hf hs (le_refl P) hcopy.args
  · exact hcopy.registers r hr (hknows.of_goto hp hA hid hB)
  · refine hcopy.links.step (Nat.le_refl _) (Nat.le_refl _) (fun _ _ => rfl) (fun _ _ => rfl) (fun r t ht => absurd ht (hnoalloca r t))
      (fun r _ hknows => hknows.of_goto hp hA hid hB) (fun r a hr hknows => ?_) fun _ _ => .inl
    exact hcopy.links.filled r a hr (hknows.of_goto hp hA hid hB)

include hm hglobals hf hs hsplice hcopy hsound hmem in
/-- The copy moves as the callee does. -/
theorem Copies.moves (depth : Nat) (hmove : h.Moves m memory h₁ memory₁) :
    ∃ P₁ g₁ memory₁', P ≤ P₁ ∧ Path m' depth g memory' g₁ memory₁' ∧ Copies s f callee f' m' P₁ h₁ memory₁ g₁ memory₁' ∧
      Spares f callee g g₁ ∧ Mirrored m P₁ memory₁ memory₁' := by
  cases hmove with
  | @compute i rest d _ hp hd htakes =>
    cases hi : i.isAlloca with
    | true =>
      cases hd with
      | alloca => exact ⟨P, g, memory', le_refl P, .refl, hcopy.alloca hm hsound hmem hp, .refl g, hmem.push_left .undef⟩
      | _ => cases hi
    | false =>
      obtain ⟨P₁, memory₁', hle, hd', hmem', hnew, hfills⟩ := hcopy.computes hm hglobals hsound hmem hp hi hd
      have htakes' : g.Takes ((s.transplant f callee).instruction i).dest? := by
        intro r' hr'
        rw [Function.dest?_transplanted] at hr'
        obtain ⟨r, hr, rfl⟩ := Option.map_eq_some_iff.mp hr'
        rw [hcopy.size']
        have := htakes r hr
        rw [hsound.size_registers, hcopy.function] at this
        exact Nat.add_lt_add_left this _
      have hmove' : g.Moves m' memory' _ memory₁' := .compute (hcopy.pending_cons hp hi) hd' htakes'
      obtain ⟨hcopy', hspares⟩ := hcopy.put hm hf hs hsound hp hi hle (Frame.Moves.compute hp hd htakes).size_le hmove'.size_le hnew hfills d
      exact ⟨P₁, _, memory₁', hle, hmove'.path, hcopy', hspares, hmem'⟩
  | @goto id A B hp hA hleads hB =>
    obtain ⟨B', hB', hcopy', hspares⟩ := hcopy.goto hm hf hs hsplice hsound hp hA hleads.mem_successors hB
    obtain ⟨A', hA', ht'⟩ := hcopy.block_copied hsplice hA
    have hmove' : g.Moves m' memory' (g.goto (f.blocks.length + 1 + id) B') memory' :=
      .goto (hcopy.pending_nil hp) hA' (ht' ▸ hcopy.leads hm hglobals hsound hmem hp hA hleads) (by rw [hcopy.function']; exact hB')
    exact ⟨P, _, memory', le_refl P, hmove'.path, hcopy', hspares, hmem⟩

include hm hglobals hf hs hcopy hsound hmem in
/-- The copy calls what the callee calls, with arguments that are alike. -/
theorem Copies.call {dest : Option Register} {name : String} {args : List Value} {ret : Ty} {values : List Datum}
    (hp : h.pending = .call dest name args ret :: rest) (hargs : h.Supplies m args values) :
    ∃ args' rest' values', g.pending = .call (dest.map (f.registers.size + ·)) name args' ret :: rest' ∧
      g.Supplies m' args' values' ∧ List.Forall₂ (Datum.Alike P) values values' ∧
      g.Takes (dest.map (f.registers.size + ·)) ∧
      ∀ (d : Datum) (memory₁ memory₁' : Memory), memory.size ≤ memory₁.size → memory'.size ≤ memory₁'.size →
        let g₁ := (g.behind rest').put (dest.map (f.registers.size + ·)) d
        Copies s f callee f' m' P ((h.behind rest).put dest d) memory₁ g₁ memory₁' ∧ Spares f callee g g₁ := by
  have hin : .call dest name args ret ∈ callee.instructions := hcopy.function ▸ hsound.mem_instructions (by simp [hp])
  obtain ⟨values', hvalues', halike⟩ : ∃ values', g.Supplies m'
      (args.map (s.transplant f callee).value) values' ∧ List.Forall₂ (Datum.Alike P) values values' := by
    refine Frame.exists_alike_values hargs fun v hv d hd => ?_
    refine hcopy.value hm hglobals hsound hmem (Function.mem_operands hin hv) (fun r hr => hsound.knows_used hm hp (hr ▸ hv))
      (fun r a hr hslot ha => ?_) hd
    subst hr ha
    exact hcopy.links.filled r a hslot (hsound.knows_needed hm hp rfl ⟨hcopy.function ▸ hslot, hv⟩) hd
  refine ⟨_, _, values', hcopy.pending_cons hp rfl, hvalues', halike, ?_, fun d memory₁ memory₁' hsize hsize' => ?_⟩
  · intro r' hr'
    obtain ⟨r, hr, rfl⟩ := Option.map_eq_some_iff.mp hr'
    rw [hcopy.size']
    exact Nat.add_lt_add_left ((hcopy.wellFormed hm hsound).shaped.sized _ hin r hr) _
  · refine hcopy.put hm hf hs hsound hp rfl (le_refl P) hsize hsize' (fun _ _ => .inl) (fun r a _ hgives => ?_) d
    obtain ⟨value, type, hgives⟩ := hgives
    cases hgives

/-- The edge of a phi by which control comes is found, if every block has one. -/
theorem find?_edge {incoming : List (Value × BlockId)} (hnodup : (incoming.map (·.2)).Nodup) {v : Value} {p : BlockId}
    (h : (v, p) ∈ incoming) : (incoming.find? fun (_, block) => block = p) = some (v, p) := by
  induction incoming with
  | nil => cases h
  | cons e incoming ih =>
    obtain ⟨hnot, hnodup⟩ := List.nodup_cons.mp hnodup
    rcases List.mem_cons.mp h with rfl | h
    · exact List.find?_cons_of_pos (by simp)
    · have hne : e.2 ≠ p := fun heq => hnot (List.mem_map.mpr ⟨_, h, heq.symm⟩)
      rw [List.find?_cons_of_neg (by simpa using hne)]
      exact ih hnodup h

include hm hglobals hs hsplice hcopy hsound hmem in
/-- Where the callee returns, the copy goes to the block behind the call and brings the result to its destination. -/
theorem Copies.land (hfw : f.WellFormed I) (depth : Nat) (hd : h.Returns m d) (hplain : d.Plain) (htakes : g.Takes s.dest) :
    ∃ g₁, Path m' depth g memory' g₁ memory' ∧ g₁.function = f' ∧ g₁.args = g.args ∧ g₁.block = f.blocks.length ∧
      g₁.pending = s.after ∧ g₁.registers = (g.put s.dest d).registers := by
  obtain ⟨hp, A, hA, hyields⟩ := hd
  have hA' := hA
  rw [hcopy.function] at hA'
  obtain ⟨C, hC, hCt⟩ := hcopy.block_copied hsplice hA
  obtain ⟨N, hnext, hN⟩ : ∃ N, f'.block? f.blocks.length = some N ∧ N.instructions = s.result f callee ++ s.after := by
    obtain ⟨label', hnext⟩ := hsplice.next
    exact ⟨_, hnext, rfl⟩
  obtain ⟨value, ht⟩ : ∃ value, A.terminator = some (.ret value) := by
    cases ht : A.terminator with
    | none =>
      rw [ht] at hyields
      cases hyields
    | some t =>
      rw [ht] at hyields
      cases t with
      | ret value => exact ⟨value, rfl⟩
      | _ => cases hyields
  have hleads : g.Leads m' C.terminator f.blocks.length := by
    rw [hCt, ht]
    rfl
  have hjump : g.Moves m' memory' (g.goto f.blocks.length N) memory' :=
    .goto (hcopy.pending_nil hp) hC hleads (by rw [hcopy.function']; exact hnext)
  cases hdest : s.dest with
  | none =>
    refine ⟨_, hjump.path, hcopy.function', rfl, rfl, ?_, rfl⟩
    simp [Frame.goto, hN, result, bring, hdest]
  | some r =>
    -- the callee returns a value, which the copy has too
    obtain ⟨v, rfl⟩ : ∃ v, value = some v := by
      cases value with
      | none => exact absurd ht (hs.returns_value hfw (hcopy.wellFormed hm hsound) (by simp [hdest]) (List.mem_of_getElem? hA'))
      | some v => exact ⟨v, rfl⟩
    rw [ht] at hyields
    have hv : v ∈ callee.operands := Function.mem_operands_end hA' ht (by simp [Terminator.operands])
    obtain ⟨d', hd', halike⟩ := hcopy.value hm hglobals hsound hmem hv
      (fun q hq => hsound.knows_end hm hp hA ht (by simp [Terminator.operands, hq])) (fun _ a _ _ ha => absurd ha (hplain a)) hyields
    obtain rfl := halike.eq_of_plain hplain
    have hmem_returns : ((s.transplant f callee).value v, f.blocks.length + 1 + h.block) ∈ s.returns f callee :=
      Function.mem_returns.mpr ⟨h.block, A, v, hA', ht, rfl, rfl⟩
    have hcomputes : (g.goto f.blocks.length N).Computes m' memory' (Function.resultOf r s.ret (s.returns f callee)) d' memory' := by
      unfold Function.resultOf
      split
      · rename_i w p heq
        rw [heq] at hmem_returns
        cases List.mem_singleton.mp hmem_returns
        exact .assign hd'
      · exact .phi (congrArg some hcopy.block) (find?_edge Function.nodup_returns hmem_returns) hd'
    have hresult : s.result f callee = [Function.resultOf r s.ret (s.returns f callee)] := by
      simp [result, bring, hdest]
    have hr : (Function.resultOf r s.ret (s.returns f callee)).dest? = some r := by
      rw [Function.dest?_result (by rw [hresult]; exact List.mem_singleton_self _), hdest]
    have hmove : (g.goto f.blocks.length N).Moves m' memory' (((g.goto f.blocks.length N).behind s.after).put (some r) d') memory' := by
      rw [← hr]
      refine .compute (by simp [Frame.goto, hN, hresult]) hcomputes ?_
      rw [hr]
      exact hdest ▸ htakes
    exact ⟨_, .move hjump hmove.path, hcopy.function', rfl, rfl, rfl, rfl⟩

end

/-- The caller comes to the call: the copy is where the callee starts. -/
theorem copies_start (hsplice : f.Spliced callee s f') (hhoists : Hoists callee f.registers.size P g memory')
    (hfunction : g.function = f') (hsize : g.registers.size = f.registers.size + callee.registers.size) {values : List Datum}
    (hargs : List.Forall₂ (fun d v => ∃ d', g.value? m' v = some d' ∧ d.Alike P d') values s.args) {B : Block}
    (hB : callee.block? callee.entry = some B) (dest : Option Register) (memory : Memory) :
    ∃ B', f'.block? (f.blocks.length + 1 + callee.entry) = some B' ∧
      Copies s f callee f' m' P (callee.frame values dest B) memory (g.goto (f.blocks.length + 1 + callee.entry) B') memory' ∧
      Spares f callee g (g.goto (f.blocks.length + 1 + callee.entry) B') := by
  obtain ⟨label, hcopied⟩ := hsplice.copied callee.entry B hB
  have hundef : ∀ (r : Register) (a : Nat), (callee.frame values dest B).registers[r]? ≠ some (.pointer a) := by
    intro r a hr
    simp only [Function.frame, Array.getElem?_replicate] at hr
    split at hr <;> cases hr
  have hvalue : ∀ v B', (g.goto (f.blocks.length + 1 + callee.entry) B').value? m' v = g.value? m' v := fun v B' => by cases v <;> rfl
  refine ⟨_, hcopied, ⟨rfl, hfunction, hsize, rfl, by rintro _ ⟨⟩, rfl, ?_, fun r _ hknows => absurd hknows (Frame.not_knows_frame hB), ?_⟩,
    ⟨rfl, rfl, rfl, fun _ _ => rfl, fun _ _ => rfl⟩⟩
  · exact hargs.imp fun d v => Exists.imp fun d' => And.imp_left (hvalue v _).trans
  · refine ⟨fun r hr => ?_, fun r a _ ha => absurd ha (hundef r a), fun r _ _ a => hundef r a,
      fun r _ hknows => absurd hknows (Frame.not_knows_frame hB), fun r _ _ hknows => absurd hknows (Frame.not_knows_frame hB),
      fun r _ a _ _ ha => absurd ha (hundef r a), hhoists.apart⟩
    obtain ⟨c, hc, hlt, hno⟩ := hhoists.slot r hr
    exact ⟨c, hc, hlt, fun a ha => absurd ha (hno a)⟩

end IR.Splice

end Ember
