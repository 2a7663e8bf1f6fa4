import Ember.Proofs.Lower.Expression
import Mathlib.Data.Set.Insert

/-!
# Blocks of a function that is being lowered

Lowering a statement makes blocks, ends blocks and goes on in others. `Advances` says what stays as it was on the way: the promises
about the blocks there were, and what stands in them, the current one apart. A block that was made and not yet entered waits, empty,
for the edges that lead to it (`Waits`); the blocks that have no end yet are kept count of (`Pending`), so that in the end there are
none.
-/

namespace Ember

open IR (Interface Grade Grading Ledger Instruction Terminator Register Block BlockId Value Ty)

variable {I : Interface} {params : List Grade}

namespace Spot

/-- What stays as it was between two spots of a function: the promises about the blocks there were, and all of them but the current
one and the entry, where slots are allocated. The second spot is in the block of the first, or in a new one. -/
structure Advances (σ τ : Spot I params) : Prop where
  ledger : σ.ledger.Continues σ.function τ.ledger τ.function
  types : σ.work.types.Extends τ.work.types
  promises : ∀ b < σ.function.blocks.length, τ.ledger.filled b = σ.ledger.filled b
  builder : τ.work.builder = { σ.work.builder.update τ.function with block := some τ.block }
  returns : τ.work.returns = σ.work.returns
  defined : τ.work.defined = σ.work.defined
  others : ∀ b < σ.function.blocks.length, b ≠ σ.block → b ≠ 0 → τ.function.block? b = σ.function.block? b
  place : τ.block = σ.block ∨ σ.function.blocks.length ≤ τ.block

variable {σ τ υ : Spot I params} {b : BlockId} {F : Register → Prop} {R : Set BlockId}

/-- The builder of a spot is at its block. -/
theorem builder_eq (σ : Spot I params) : σ.work.builder = { σ.work.builder.update σ.function with block := some σ.block } := by
  rw [IR.Builder.update_self σ.cursor.function, ← σ.cursor.block]

theorem block_lt (σ : Spot I params) : σ.block < σ.function.blocks.length :=
  (List.getElem?_eq_some_iff.mp σ.cursor.here).1

namespace Advances

theorem refl (σ : Spot I params) : σ.Advances σ :=
  ⟨.refl _ _, .refl _, fun _ _ => rfl, σ.builder_eq, rfl, rfl, fun _ _ _ _ => rfl, .inl rfl⟩

theorem trans (h : σ.Advances τ) (h' : τ.Advances υ) : σ.Advances υ where
  ledger := h.ledger.trans h'.ledger
  types := h.types.trans h'.types
  promises := fun b hb => (h'.promises b (Nat.lt_of_lt_of_le hb h.ledger.length)).trans (h.promises b hb)
  builder := by
    rw [h'.builder, h.builder]
    show ({ (σ.work.builder.update τ.function).update υ.function with block := some υ.block } : IR.Builder) = _
    rw [IR.Builder.update_update]
  returns := h'.returns.trans h.returns
  defined := h'.defined.trans h.defined
  others := fun b hb hne h0 => by
    have hτ : b ≠ τ.block := by
      rcases h.place with hp | hp
      · exact hp ▸ hne
      · exact Nat.ne_of_lt (Nat.lt_of_lt_of_le hb hp)
    exact (h'.others b (Nat.lt_of_lt_of_le hb h.ledger.length) hτ h0).trans (h.others b hb hne h0)
  place := by
    rcases h'.place with hp | hp
    · exact hp ▸ h.place
    · exact .inr (h.ledger.length.trans hp)

theorem lt (h : σ.Advances τ) {id : TypeId} (hid : σ.work.types.Has id) : τ.work.types.Has id :=
  Nat.lt_of_lt_of_le hid h.types.length_le

end Advances

theorem Appends.advances {chunk : List Instruction} (h : σ.Appends τ chunk) : σ.Advances τ where
  ledger := h.ledger
  types := h.types
  promises := fun b _ => by rw [h.promises]
  builder := by
    rw [h.work]
    show σ.work.builder.update τ.function = _
    rw [h.block, ← σ.cursor.block]
    rfl
  returns := by rw [h.work]
  defined := by rw [h.work]
  others := fun b _ hb _ => h.others b hb
  place := .inl h.block

/-- A spot of the function before another: what may have changed is what is filled. -/
structure Precedes (σ τ : Spot I params) : Prop where
  ledger : σ.ledger.Continues σ.function τ.ledger τ.function
  types : σ.work.types.Extends τ.work.types

theorem Precedes.trans (h : σ.Precedes τ) (h' : τ.Precedes υ) : σ.Precedes υ :=
  ⟨h.ledger.trans h'.ledger, h.types.trans h'.types⟩

theorem Advances.precedes (h : σ.Advances τ) : σ.Precedes τ :=
  ⟨h.ledger, h.types⟩

theorem Keeps.precedes (h : σ.Keeps τ) : σ.Precedes τ :=
  ⟨h.ledger, h.types⟩

/-- Keeping what was filled on the way. -/
theorem Advances.keeps (h : σ.Advances τ) (hf : ∀ r, σ.Filled r → τ.Filled r) : σ.Keeps τ :=
  ⟨h.ledger, h.types, hf⟩

/-- It is promised which slots are filled when a block is entered. -/
structure Promises (σ : Spot I params) (b : BlockId) (F : Register → Prop) : Prop where
  ne : b ≠ 0
  lt : b < σ.function.blocks.length
  filled : σ.ledger.filled b = F

/-- A block waits to be entered. -/
structure Waits (σ : Spot I params) (b : BlockId) (F : Register → Prop) : Prop extends σ.Promises b F where
  empty : ∃ label, σ.function.block? b = some { id := b, label }

theorem Promises.advances (h : σ.Promises b F) (ha : σ.Advances τ) : τ.Promises b F :=
  ⟨h.ne, Nat.lt_of_lt_of_le h.lt ha.ledger.length, (ha.promises b h.lt).trans h.filled⟩

theorem Waits.advances (h : σ.Waits b F) (ha : σ.Advances τ) (hb : b ≠ σ.block) : τ.Waits b F :=
  ⟨h.toPromises.advances ha, by rw [ha.others b h.lt hb h.ne]; exact h.empty⟩

/-- A block that waits is not the one where lowering goes on by itself. -/
theorem Waits.ne_block (h : σ.Waits b F) (ha : σ.Advances τ) (hb : b ≠ σ.block) : b ≠ τ.block := by
  rcases ha.place with hp | hp
  · exact hp ▸ hb
  · exact Nat.ne_of_lt (Nat.lt_of_lt_of_le h.lt hp)

theorem Promises.of_eq (h : σ.Promises b F) (hfunction : τ.function = σ.function) (hledger : τ.ledger = σ.ledger) : τ.Promises b F :=
  ⟨h.ne, hfunction ▸ h.lt, hledger ▸ h.filled⟩

theorem Waits.of_eq (h : σ.Waits b F) (hfunction : τ.function = σ.function) (hledger : τ.ledger = σ.ledger) : τ.Waits b F :=
  ⟨h.toPromises.of_eq hfunction hledger, hfunction ▸ h.empty⟩

/-- The blocks without an end are among `R`, and no block ends where it must not be reached. -/
structure Pending (σ : Spot I params) (R : Set BlockId) : Prop where
  opened : ∀ b B, σ.function.block? b = some B → B.terminator = none → b ∈ R
  alive : ∀ b B, σ.function.block? b = some B → B.terminator ≠ some .unreachable

theorem Pending.mono {R' : Set BlockId} (h : σ.Pending R) (hR : R ⊆ R') : σ.Pending R' :=
  ⟨fun b B hB ht => hR (h.opened b B hB ht), h.alive⟩

/-- What is known about the ends of blocks carries over to a function whose blocks end alike. -/
theorem Pending.transfer (h : σ.Pending R)
    (hends : ∀ b B, τ.function.block? b = some B → ∃ B₀, σ.function.block? b = some B₀ ∧ B.terminator = B₀.terminator) : τ.Pending R where
  opened := fun b B hB ht =>
    let ⟨B₀, hB₀, he⟩ := hends b B hB
    h.opened b B₀ hB₀ (he ▸ ht)
  alive := fun b B hB ht =>
    let ⟨B₀, hB₀, he⟩ := hends b B hB
    h.alive b B₀ hB₀ (he ▸ ht)

/-- Blocks end as before when instructions are appended. -/
theorem Appends.ends {chunk : List Instruction} (ha : σ.Appends τ chunk) (b : BlockId) (B : Block) (hB : τ.function.block? b = some B) :
    ∃ B₀, σ.function.block? b = some B₀ ∧ B.terminator = B₀.terminator := by
  by_cases hb : b = σ.block
  · rw [hb, ← ha.block, τ.cursor.here] at hB
    cases hB
    exact ⟨σ.content, hb ▸ σ.cursor.here, by rw [ha.content]⟩
  · exact ⟨B, ha.others b hb ▸ hB, rfl⟩

theorem Pending.of_eq (h : σ.Pending R) (hfunction : τ.function = σ.function) : τ.Pending R :=
  ⟨hfunction ▸ h.opened, hfunction ▸ h.alive⟩

/-- A current block that has its end is not pending. -/
theorem Pending.of_ended (h : σ.Pending (insert σ.block R)) (hended : σ.content.terminator ≠ none) : σ.Pending R := by
  refine ⟨fun b B hB ht => (h.opened b B hB ht).resolve_left ?_, h.alive⟩
  rintro rfl
  rw [σ.cursor.here] at hB
  cases hB
  exact hended ht

/-- The spot of another stage of the function. -/
def become (σ : Spot I params) {k : Ledger} {f : IR.Function} {c : BlockId} {C : Block} (hd : f.Draft I params k)
    (hC : f.block? c = some C) : Spot I params where
  ledger := k
  work := { σ.work with builder := { σ.work.builder.update f with block := some c } }
  function := f
  block := c
  content := C
  cursor := ⟨IR.Builder.currentFunction?_update σ.cursor.function, rfl, hC⟩
  types := σ.types
  draft := hd

/-- No edge leads to the block. -/
def Untargeted (σ : Spot I params) (b : BlockId) : Prop :=
  ∀ c B, σ.function.block? c = some B → b ∉ B.successors

/-- Edges lead to blocks that there are. -/
theorem untargeted_of_le (h : σ.function.blocks.length ≤ b) : σ.Untargeted b :=
  fun c B hB hs => Nat.not_lt_of_le h ((σ.draft.blocks c B hB).targets b hs).1

/-- A name keeps its meaning for all scopes. -/
theorem Keeps.symbols {scopes : Scopes} (h : σ.Keeps τ) (hs : ∀ scope ∈ scopes, ∀ s ∈ scope, σ.Means s.operand) :
    ∀ scope ∈ scopes, ∀ s ∈ scope, τ.Means s.operand :=
  fun scope hscope s hmem => (hs scope hscope s hmem).keeps h

/-- Journal and scopes are no part of the function. -/
def annotate (σ : Spot I params) (journal : Journal) (scopes : Scopes) : Spot I params :=
  { σ with work := { σ.work with journal, scopes }, cursor := σ.cursor, types := σ.types }

theorem advances_annotate (σ : Spot I params) (journal : Journal) (scopes : Scopes) : σ.Advances (σ.annotate journal scopes) :=
  ⟨.refl _ _, .refl _, fun _ _ => rfl, σ.builder_eq, rfl, rfl, fun _ _ _ _ => rfl, .inl rfl⟩

theorem keeps_annotate (σ : Spot I params) (journal : Journal) (scopes : Scopes) : σ.Keeps (σ.annotate journal scopes) :=
  ⟨.refl _ _, .refl _, fun _ hr => hr⟩

/-- What a statement leads to: what was filled is filled, only the innermost scope has more names, and of the current block and the
blocks that were made only the last may be open. -/
structure Leads (σ τ : Spot I params) : Prop where
  advances : σ.Advances τ
  filled : ∀ r, σ.Filled r → τ.Filled r
  inScope : τ.work.scopes ≠ []
  outer : τ.work.scopes.tail = σ.work.scopes.tail
  symbols : ∀ scope ∈ τ.work.scopes, ∀ s ∈ scope, τ.Means s.operand
  pending : ∀ R, σ.Pending (insert σ.block R) → τ.Pending (insert τ.block R)

theorem Leads.keeps (h : σ.Leads τ) : σ.Keeps τ :=
  h.advances.keeps h.filled

theorem Leads.trans (h : σ.Leads τ) (h' : τ.Leads υ) : σ.Leads υ :=
  ⟨h.advances.trans h'.advances, fun r hr => h'.filled r (h.filled r hr), h'.inScope, h'.outer.trans h.outer, h'.symbols,
    fun R hR => h'.pending R (h.pending R hR)⟩

/-- What a statement without control flow leads to: the current block goes on, and all blocks end as they did. -/
structure Stays (σ τ : Spot I params) : Prop where
  advances : σ.Advances τ
  filled : ∀ r, σ.Filled r → τ.Filled r
  inScope : τ.work.scopes ≠ []
  outer : τ.work.scopes.tail = σ.work.scopes.tail
  block : τ.block = σ.block
  ends : ∀ b B, τ.function.block? b = some B → ∃ B₀, σ.function.block? b = some B₀ ∧ B.terminator = B₀.terminator

theorem Stays.keeps (h : σ.Stays τ) : σ.Keeps τ :=
  h.advances.keeps h.filled

theorem Stays.refl (hs : σ.work.scopes ≠ []) : σ.Stays σ :=
  ⟨.refl _, fun _ hr => hr, hs, rfl, rfl, fun _ B hB => ⟨B, hB, rfl⟩⟩

theorem Stays.trans (h : σ.Stays τ) (h' : τ.Stays υ) : σ.Stays υ where
  advances := h.advances.trans h'.advances
  filled := fun r hr => h'.filled r (h.filled r hr)
  inScope := h'.inScope
  outer := h'.outer.trans h.outer
  block := h'.block.trans h.block
  ends := fun b B hB =>
    let ⟨B₁, hB₁, he₁⟩ := h'.ends b B hB
    let ⟨B₀, hB₀, he₀⟩ := h.ends b B₁ hB₁
    ⟨B₀, hB₀, he₁.trans he₀⟩

theorem Stays.untargeted (h : σ.Stays τ) (hb : σ.Untargeted b) : τ.Untargeted b := by
  intro c B hB hs
  obtain ⟨B₀, hB₀, he⟩ := h.ends c B hB
  exact hb c B₀ hB₀ (by rwa [Block.successors, ← he])

end Spot

namespace Scene

open Lowering

variable {σ : Scene I params} {R : Set BlockId} {F : Register → Prop}

theorem stays_of_appends {τ : Scene I params} {chunk : List Instruction} (h : σ.Appends τ.toSpot chunk) (hs : σ.work.scopes ≠ []) :
    σ.Stays τ.toSpot := by
  have hscopes : τ.work.scopes = σ.work.scopes := by rw [h.work]
  exact ⟨h.advances, h.keeps.filled, hscopes ▸ hs, congrArg _ hscopes, h.block, h.ends⟩

theorem leads_of_stays {τ : Scene I params} (h : σ.Stays τ.toSpot) : σ.Leads τ.toSpot :=
  ⟨h.advances, h.filled, h.inScope, h.outer, τ.symbols, fun _ hR => h.block ▸ hR.transfer h.ends⟩

theorem leads_refl (hs : σ.work.scopes ≠ []) : σ.Leads σ.toSpot :=
  ⟨.refl _, fun _ hr => hr, hs, rfl, σ.symbols, fun _ hR => hR⟩

/-! ## Making a block -/

/-- A block was made that waits, and the spot is where it was. -/
structure Opens (σ τ : Spot I params) (id : BlockId) (F : Register → Prop) : Prop where
  advances : σ.Advances τ
  id_eq : id = σ.function.blocks.length
  waits : τ.Waits id F
  block : τ.block = σ.block
  content : τ.content = σ.content
  filled : ∀ r, τ.Filled r ↔ σ.Filled r
  scopes : τ.work.scopes = σ.work.scopes
  untargeted : ∀ b, σ.Untargeted b → τ.Untargeted b
  pending : ∀ R, σ.Pending R → τ.Pending (insert id R)

theorem does_appendBlock (σ : Scene I params) (label : String) (F : Register → Prop) :
    Does (build (.appendBlock label)) σ.work fun id w => ∃ τ : Scene I params, τ.work = w ∧ Opens σ.toSpot τ.toSpot id F := by
  refine does_build (IR.Build.appendBlock_eq σ.cursor.function label) ?_
  have hblock := IR.Function.block?_addBlock σ.function label
  have hlt := σ.block_lt
  have hnew := (hblock σ.function.blocks.length).trans (if_pos rfl)
  have hlen : 0 < σ.function.blocks.length := σ.draft.nonempty
  have hno : ∀ B ∈ (σ.function.addBlock label).2.blocks, σ.function.blocks.length ∉ B.successors := by
    intro B hB hs
    obtain ⟨c, hc⟩ := IR.Function.exists_block? hB
    rw [hblock] at hc
    split at hc
    · cases hc
      simp [Block.successors] at hs
    · exact Nat.lt_irrefl _ (((σ.draft.blocks c B hc).targets _ hs).1)
  have hd := (σ.draft.addBlock label).promise (Nat.ne_of_gt hlen) hnew hno F
  have hhere : (σ.function.addBlock label).2.block? σ.block = some σ.content :=
    (hblock σ.block).trans ((if_neg (Nat.ne_of_lt hlt)).trans σ.cursor.here)
  let τ : Spot I params := σ.toSpot.become hd hhere
  have hfilled : ∀ r, τ.Filled r ↔ σ.Filled r := fun r => by
    show (σ.ledger.promise _ F).filled σ.block r ∨ _ ↔ _
    rw [σ.ledger.filled_promise_of_ne F (Nat.ne_of_lt hlt)]
    rfl
  have hadv : σ.toSpot.Advances τ :=
    { ledger := { IR.Function.continues_addBlock σ.ledger σ.function label with register := fun _ _ => rfl }
      types := .refl _
      promises := fun c hc => σ.ledger.filled_promise_of_ne F (Nat.ne_of_lt hc)
      builder := rfl
      returns := rfl
      defined := rfl
      others := fun c hc _ _ => (hblock c).trans (if_neg (Nat.ne_of_lt hc))
      place := .inl rfl }
  have hkeeps : σ.toSpot.Keeps τ := hadv.keeps fun r => (hfilled r).mpr
  refine ⟨⟨τ, σ.opened, hkeeps.symbols σ.symbols⟩, ?_, ⟨hadv, rfl, ?_, rfl, rfl, hfilled, rfl, fun b hb c C hC => ?_, fun R hp => ⟨?_, ?_⟩⟩⟩
  · show { σ.work with builder := { σ.work.builder.update (σ.function.addBlock label).2 with block := some σ.block } } = _
    rw [← σ.cursor.block]
    rfl
  · refine ⟨⟨Nat.ne_of_gt hlen, ?_, σ.ledger.filled_promise_self _ F⟩, _, hnew⟩
    show σ.function.blocks.length < (σ.function.addBlock label).2.blocks.length
    simp [IR.Function.addBlock]
  · rw [show τ.function.block? c = _ from hblock c] at hC
    split at hC
    · cases hC
      simp [Block.successors]
    · exact hb c C hC
  · intro c C hC ht
    rw [show τ.function.block? c = _ from hblock c] at hC
    split at hC
    · exact .inl ‹_›
    · exact .inr (hp.opened c C hC ht)
  · intro c C hC
    rw [show τ.function.block? c = _ from hblock c] at hC
    split at hC
    · cases hC
      simp
    · exact hp.alive c C hC

/-! ## Ending a block -/

/-- The current block was ended, and the spot is where it was. -/
structure Ends (σ τ : Spot I params) : Prop where
  advances : σ.Advances τ
  block : τ.block = σ.block
  ended : τ.content.terminator ≠ none
  filled : ∀ r, τ.Filled r ↔ σ.Filled r
  scopes : τ.work.scopes = σ.work.scopes
  pending : ∀ R, σ.Pending (insert σ.block R) → τ.Pending R

theorem Ends.keeps {σ τ : Spot I params} (h : Ends σ τ) : σ.Keeps τ :=
  h.advances.keeps fun r => (h.filled r).mpr

/-- What an end must meet: it is typed, what it uses is there, and the promises about the blocks to which it leads are kept. -/
structure MayEnd (σ : Spot I params) (t : Terminator) : Prop where
  typed : σ.grading.TypesEnd σ.function.ret t
  operands : ∀ v ∈ t.operands, σ.Available v
  targets : ∀ s ∈ t.successors, ∃ F, σ.Promises s F ∧ ∀ r, F r → σ.Filled r

theorem mayEnd_jump {σ : Spot I params} {target : BlockId} (h : σ.Promises target F) (hF : ∀ r, F r → σ.Filled r) :
    MayEnd σ (.jump target) :=
  ⟨trivial, nofun, fun s hs => ⟨F, by rw [List.mem_singleton.mp hs]; exact h, hF⟩⟩

theorem mayEnd_branch {σ : Spot I params} {v : Value} {yes no : BlockId} {F' : Register → Prop} (hv : σ.Holds v .bool)
    (hyes : σ.Promises yes F) (hno : σ.Promises no F') (hF : ∀ r, F r → σ.Filled r) (hF' : ∀ r, F' r → σ.Filled r) :
    MayEnd σ (.branch v yes no) := by
  refine ⟨hv.has, fun u hu => List.mem_singleton.mp hu ▸ hv.available, fun s hs => ?_⟩
  rcases List.mem_pair.mp hs with rfl | rfl
  · exact ⟨F, hyes, hF⟩
  · exact ⟨F', hno, hF'⟩

/-- What an end makes of the function. -/
theorem does_end (σ : Scene I params) {t : Terminator} (h : MayEnd σ.toSpot t) :
    Does (build (.terminate t)) σ.work fun _ w => ∃ τ : Spot I params, τ.work = w ∧ σ.Advances τ ∧ τ.block = σ.block ∧
      τ.function = σ.function.terminate σ.block t ∧ (∀ r, τ.Filled r ↔ σ.Filled r) ∧ τ.work.scopes = σ.work.scopes := by
  refine does_build (IR.Build.terminate_eq σ.cursor σ.opened t) ?_
  have hblock := IR.Function.block?_terminate (t := t) σ.cursor.here
  have hd := σ.draft.terminate σ.cursor.here h.typed h.operands fun s hs => by
    obtain ⟨F, hp, hF⟩ := h.targets s hs
    exact ⟨hp.lt, hp.ne, fun r hr => hF r (hp.filled ▸ hr)⟩
  let τ : Spot I params := σ.toSpot.become hd ((hblock σ.block).trans (if_pos rfl))
  refine ⟨τ, ?_, ⟨IR.Function.continues_terminate _ σ.cursor.here, .refl _, fun _ _ => rfl, rfl, rfl, rfl, fun c hc hne _ => ?_, .inl rfl⟩,
    rfl, rfl, fun _ => Iff.rfl, rfl⟩
  · show { σ.work with builder := { σ.work.builder.update (σ.function.terminate σ.block t) with block := some σ.block } } = _
    rw [← σ.cursor.block]
    rfl
  · exact (hblock c).trans (if_neg hne)

theorem does_terminate (σ : Scene I params) {t : Terminator} (h : MayEnd σ.toSpot t) (halive : t ≠ .unreachable) :
    Does (build (.terminate t)) σ.work fun _ w => ∃ τ : Spot I params, τ.work = w ∧ Ends σ.toSpot τ ∧
      ∀ b ∉ t.successors, σ.Untargeted b → τ.Untargeted b := by
  refine (σ.does_end h).imp fun _ w ⟨τ, hw, hadv, hτ, hfun, hfilled, hscopes⟩ => ?_
  have hblock : ∀ c, τ.function.block? c = if c = σ.block then some { σ.content with terminator := some t } else σ.function.block? c :=
    fun c => hfun ▸ IR.Function.block?_terminate σ.cursor.here c
  refine ⟨τ, hw, ⟨hadv, hτ, ?_, hfilled, hscopes, fun R hp => ⟨fun c C hC ht => ?_, fun c C hC => ?_⟩⟩, fun b hb hun c C hC => ?_⟩
  · have hcontent := τ.cursor.here
    rw [hτ, hblock, if_pos rfl] at hcontent
    rw [← Option.some.inj hcontent]
    nofun
  · rw [hblock] at hC
    split at hC
    · cases hC
      cases ht
    · exact (hp.opened c C hC ht).resolve_left ‹_›
  · rw [hblock] at hC
    split at hC
    · cases hC
      simpa using halive
    · exact hp.alive c C hC
  · rw [hblock] at hC
    split at hC
    · cases hC
      exact hb
    · exact hun c C hC

/-! ## Going on in another block -/

/-- A block that waits is entered: what was filled where the edges come from is filled, and names mean what they meant there. -/
theorem does_moveTo {base σ : Spot I params} {ρ : Scene I params} {b : BlockId} (hbase : base.Advances σ)
    (hb : base.function.blocks.length ≤ b) (hw : σ.Waits b ρ.Filled) (hρ : ρ.Precedes σ) (hscopes : σ.work.scopes = ρ.work.scopes) :
    Does (build (.moveTo b)) σ.work fun _ w => ∃ τ : Scene I params, τ.work = w ∧ base.Advances τ.toSpot ∧ τ.block = b ∧
      τ.function = σ.function ∧ τ.ledger = σ.ledger ∧ ρ.Keeps τ.toSpot ∧ τ.work.scopes = ρ.work.scopes := by
  refine does_build rfl ?_
  obtain ⟨label, hempty⟩ := hw.empty
  let τ : Spot I params := σ.become σ.draft hempty
  have hkeeps : ρ.Keeps τ := ⟨hρ.ledger, hρ.types, fun r hr => .inl (by rw [show τ.ledger.filled τ.block = _ from hw.filled]; exact hr)⟩
  refine ⟨⟨τ, rfl, ?_⟩, ?_, ⟨hbase.ledger, hbase.types, hbase.promises, ?_, hbase.returns, hbase.defined, hbase.others, .inr hb⟩, rfl,
    rfl, rfl, hkeeps, hscopes⟩
  · show ∀ scope ∈ σ.work.scopes, _
    rw [hscopes]
    exact hkeeps.symbols ρ.symbols
  · show { σ.work with builder := { σ.work.builder.update σ.function with block := some b } } = _
    rw [IR.Builder.update_self σ.cursor.function]
  · show ({ σ.work.builder.update σ.function with block := some b } : IR.Builder) = _
    rw [hbase.builder]
    show ({ (base.work.builder.update σ.function).update σ.function with block := some b } : IR.Builder) = _
    rw [IR.Builder.update_update]
    rfl

/-- What is promised about blocks to which no edge leads may be promised anew. -/
theorem exists_promise (σ : Scene I params) (bs : List BlockId)
    (hbs : ∀ b ∈ bs, σ.Untargeted b ∧ b ≠ σ.block ∧ ∃ F, σ.Waits b F) (F' : Register → Prop) :
    ∃ τ : Scene I params, τ.work = σ.work ∧ τ.function = σ.function ∧ τ.block = σ.block ∧ σ.Keeps τ.toSpot ∧
      (∀ b ∈ bs, τ.Waits b F') ∧ (∀ c ∉ bs, τ.ledger.filled c = σ.ledger.filled c) ∧ ∀ r, τ.Filled r → σ.Filled r := by
  induction bs with
  | nil => exact ⟨σ, rfl, rfl, rfl, .refl _, nofun, fun _ _ => rfl, fun _ hr => hr⟩
  | cons b bs ih =>
    obtain ⟨υ, hwork, hfunction, hblock, hkeeps, hwaits, hothers, hback⟩ := ih fun c hc => hbs c (List.mem_cons_of_mem _ hc)
    obtain ⟨hun, hne, F, hw⟩ := hbs b List.mem_cons_self
    obtain ⟨label, hempty⟩ := hw.empty
    rw [← hfunction] at hempty
    have hno : ∀ B ∈ υ.function.blocks, b ∉ B.successors := fun B hB =>
      let ⟨c, hc⟩ := List.mem_iff_getElem?.mp hB
      hun c B (by rw [← hfunction]; exact hc)
    have hd := υ.draft.promise hw.ne hempty hno F'
    have hfilled : ∀ r, (υ.ledger.promise b F').FilledAt υ.block υ.done r ↔ υ.Filled r := fun r => by
      rw [Ledger.FilledAt, υ.ledger.filled_promise_of_ne F' (hblock ▸ hne.symm)]
      rfl
    let τ : Spot I params := { υ.toSpot with ledger := υ.ledger.promise b F', draft := hd }
    have hkeeps' : υ.Keeps τ :=
      ⟨{ Ledger.Continues.refl υ.ledger υ.function with register := fun _ _ => rfl }, .refl _, fun r => (hfilled r).mpr⟩
    have hself : τ.Waits b F' := ⟨⟨hw.ne, hfunction ▸ hw.lt, υ.ledger.filled_promise_self b F'⟩, label, hempty⟩
    refine ⟨⟨τ, υ.opened, hkeeps'.symbols υ.symbols⟩, hwork, hfunction, hblock, hkeeps.trans hkeeps', fun c hc => ?_, fun c hc => ?_,
      fun r hr => hback r ((hfilled r).mp hr)⟩
    · by_cases heq : c = b
      · exact heq ▸ hself
      · have hold := hwaits c ((List.mem_cons.mp hc).resolve_left heq)
        exact ⟨⟨hold.ne, hold.lt, (υ.ledger.filled_promise_of_ne F' heq).trans hold.filled⟩, hold.empty⟩
    · rw [List.mem_cons, not_or] at hc
      exact (υ.ledger.filled_promise_of_ne F' hc.1).trans (hothers c hc.2)

/-- Promises about new blocks change nothing that there was. -/
theorem advances_promised {base : Spot I params} {σ τ : Scene I params} (h : base.Advances σ.toSpot) (hwork : τ.work = σ.work)
    (hfunction : τ.function = σ.function) (hblock : τ.block = σ.block) (hkeeps : σ.Keeps τ.toSpot)
    (hfilled : ∀ c < base.function.blocks.length, τ.ledger.filled c = σ.ledger.filled c) : base.Advances τ.toSpot where
  ledger := h.ledger.trans hkeeps.ledger
  types := h.types.trans hkeeps.types
  promises := fun c hc => (hfilled c hc).trans (h.promises c hc)
  builder := by rw [hwork, hfunction, hblock]; exact h.builder
  returns := by rw [hwork]; exact h.returns
  defined := by rw [hwork]; exact h.defined
  others := by rw [hfunction]; exact h.others
  place := by rw [hblock]; exact h.place

theorem run_isTerminated (σ : Spot I params) : build .isTerminated σ.work = .ok σ.content.terminator.isSome σ.work :=
  run_build.mpr ⟨_, IR.Build.run_isTerminated.mpr ⟨σ.cursor.isTerminated, rfl⟩, rfl⟩

/-- A jump ends a block that has no end. -/
theorem does_jumpUnlessDone {σ : Spot I params} {target : BlockId} (hp : σ.Promises target F) (hF : ∀ r, F r → σ.Filled r)
    (hsymbols : ∀ scope ∈ σ.work.scopes, ∀ s ∈ scope, σ.Means s.operand) :
    Does (jumpUnlessDone target) σ.work fun _ w => ∃ τ : Spot I params, τ.work = w ∧ Ends σ τ := by
  refine does_of_ok (run_isTerminated σ) (does_ite (fun hopen => ?_) fun hended =>
    does_pure ⟨σ, rfl, .refl σ, rfl, ?_, fun _ => Iff.rfl, rfl, fun R hR => ?_⟩)
  · have hopen : σ.content.terminator = none := by simpa using hopen
    exact (does_terminate ⟨σ, hopen, hsymbols⟩ (mayEnd_jump hp hF) nofun).imp fun _ _ ⟨τ, hw, hends, _⟩ => ⟨τ, hw, hends⟩
  · intro hn
    simp [hn] at hended
  · exact hR.of_ended fun hn => by simp [hn] at hended

end Scene

end Ember
