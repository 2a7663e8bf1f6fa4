import Ember.Proofs.Typing.Interning

/-!
# Function types are told apart by their signatures

Whatever a table is asked for, every entry keeps the name that belongs to it (`Reached.orderly`), and the names of function types are unambiguous
at every depth (`Named.tells`). So two requests for a function type give the same type exactly if they ask for the same signature
(`Reached.functions_apart`).
-/

namespace Ember

namespace TypeTable

variable {t t' : TypeTable} {id : TypeId} {e : TypeEntry} {s s' : Signature}

/-! ## Names are spelled as they should be -/

/-- A table in which every entry has the name that belongs to it, and a mutable type comes after the plain type of its name. -/
structure Orderly (t : TypeTable) : Prop where
  spelled : ∀ (id : TypeId) (e : TypeEntry), t.entries[id]? = some e → t.Spelled id e
  plain : ∀ (id : TypeId) (e : TypeEntry), t.entries[id]? = some e → e.mutable = true →
    ∃ (p : TypeId) (e' : TypeEntry), p < id ∧ t.entries[p]? = some e' ∧ e'.mutable = false ∧ e'.name = e.name

theorem Spelled.extends (h : t.Spelled id e) (hid : id ≤ t.entries.length) (hx : t.Extends t') : t'.Spelled id e where
  word := h.word
  signature s hs := by
    obtain ⟨hname, hlt⟩ := h.signature s hs
    exact ⟨by rw [hname, hx.functionName fun x hxs => Nat.lt_of_lt_of_le (hlt x hxs) hid], hlt⟩

/-- An entry with the name that belongs to it may be added, if it is plain or the plain type of its name is there. -/
theorem Orderly.insert (h : t.Orderly) (he : t.Spelled t.entries.length e)
    (hplain : e.mutable = true → ∃ (p : TypeId) (e' : TypeEntry), t.entries[p]? = some e' ∧ e'.mutable = false ∧ e'.name = e.name) :
    (t.insert e).2.Orderly := by
  cases hl : t.lookup? e.decorated with
  | some id => rwa [insert_found hl]
  | none =>
    rw [insert_new hl]
    have hx := t.extends_push e
    refine ⟨fun id x hget => ?_, fun id x hget hm => ?_⟩
    · rcases getElem?_push_cases hget with hget | ⟨rfl, rfl⟩
      · exact (h.spelled id x hget).extends (Nat.le_of_lt (lt_of_entry hget)) hx
      · exact he.extends (Nat.le_refl _) hx
    · rcases getElem?_push_cases hget with hget | ⟨rfl, rfl⟩
      · obtain ⟨p, e', hlt, he', hrest⟩ := h.plain id x hget hm
        exact ⟨p, e', hlt, hx.getElem? he', hrest⟩
      · obtain ⟨p, e', he', hrest⟩ := hplain hm
        exact ⟨p, e', lt_of_entry he', hx.getElem? he', hrest⟩

/-- The mutable form of a plain type may be added. -/
theorem Orderly.insert_mutable (h : t.Orderly) (he : t.entries[id]? = some e) (hm : e.mutable = false) {shape : Shape}
    (hshape : ∀ s, shape = .function s ↔ e.shape = .function s) : (t.insert { e with mutable := true, shape := shape }).2.Orderly := by
  have hs := h.spelled id e he
  refine h.insert ⟨fun hno => hs.word fun s hes => hno s ((hshape s).mpr hes), fun s hes => ?_⟩ fun _ => ⟨id, e, he, hm, rfl⟩
  obtain ⟨hname, hlt⟩ := hs.signature s ((hshape s).mp hes)
  exact ⟨hname, fun x hx => Nat.lt_trans (hlt x hx) (lt_of_entry he)⟩

theorem Orderly.mutableOf (h : t.Orderly) (hid : t.Has id) : (t.mutableOf id).2.Orderly := by
  obtain ⟨e, he⟩ := exists_entry hid
  cases hm : e.mutable with
  | true => simpa [TypeTable.mutableOf, entry_eq he, hm] using h
  | false => simpa [TypeTable.mutableOf, entry_eq he, hm] using h.insert_mutable he hm fun s => Iff.rfl (a := e.shape = .function s)

theorem extends_mutableOf (t : TypeTable) (id : TypeId) : t.Extends (t.mutableOf id).2 := by
  simp only [TypeTable.mutableOf]
  split
  · exact .refl t
  · exact t.extends_insert _

theorem Orderly.addAlias (h : t.Orderly) (hi : t.Interned) {name : String} (hw : IsWord name) {target : TypeId}
    (ht : t.Has target) {loc : Loc} {r : TypeId × TypeTable} (hr : t.addAlias name target loc = .ok r) : r.2.Orderly := by
  have hcount := count_of_addAlias hr
  rw [addAlias_eq hcount] at hr
  have hfree : t.lookup? (t.aliasEntry name (t.unqualified target)).decorated = none := lookup?_of_count hw hcount
  have halias := h.insert (e := t.aliasEntry name (t.unqualified target)) ⟨fun _ => hw, nofun⟩ nofun
  obtain ⟨under, hunder, -⟩ := hi.unqualified_lt ht
  rw [insert_new hfree] at hr halias
  have hmutable := halias.mutableOf (lt_of_entry ((t.extends_push _).getElem? hunder))
  have hown := (extends_mutableOf _ (t.unqualified target)).getElem? (t.getElem?_push (t.aliasEntry name (t.unqualified target)))
  rw [entry_eq hown] at hr
  cases hr
  exact hmutable.insert_mutable hown rfl fun s => by simp [aliasEntry]

theorem orderly_initial (debugInfo : Bool) : (initial debugInfo).Orderly := by
  refine ⟨(valid_initial debugInfo).named.spelled, fun id e he hm => ?_⟩
  obtain ⟨p, -, hp⟩ := List.mem_flatMap.mp (List.mem_of_getElem? he)
  obtain ⟨mutable, -, rfl⟩ := List.mem_map.mp hp
  obtain rfl : mutable = true := hm
  refine ⟨primitive p, plainEntry debugInfo p, ?_, getElem?_initial debugInfo p, rfl, rfl⟩
  -- decorated names differ, so the mutable entry of a primitive is the one right behind the plain entry
  have htwin : (initial debugInfo).entries[primitive p + 1]? = some { plainEntry debugInfo p with mutable := true } := by
    cases p <;> rfl
  have hdistinct := (valid_initial debugInfo).distinct
  have hid : id = primitive p + 1 := Option.some.inj ((lookup?_decorated hdistinct he).symm.trans (lookup?_decorated hdistinct htwin))
  exact hid ▸ Nat.lt_succ_self _

theorem Orderly.after (h : t.Orderly) (hi : t.Interned) {r : Request} (hr : t.Concerns r) : (t.after r).Orderly := by
  refine hi.after_of h hr (fun _ _ _ _ hw ht => h.addAlias hi hw ht) (fun s hs => ?_) fun _ => h.mutableOf
  exact h.insert ⟨fun hno => absurd rfl (hno s), fun s' hs' => by cases hs'; exact ⟨rfl, hs⟩⟩ nofun

/-- Whatever a table has been asked for, every entry has the name that belongs to it. -/
theorem Reached.orderly (h : t.Reached) : t.Orderly := by
  induction h with
  | initial debugInfo => exact orderly_initial debugInfo
  | after hreached hr ih => exact ih.after hreached.invariant.1 hr

theorem Reached.named (h : t.Reached) : t.Named :=
  ⟨h.invariant.1.distinct, h.orderly.spelled⟩

/-! ## Function types -/

/-- A table that comes out of another by requests. -/
inductive Later (t : TypeTable) : TypeTable → Prop where
  | refl : Later t t
  | after {t' : TypeTable} {r : Request} : Later t t' → t'.Concerns r → Later t (t'.after r)

theorem Later.reached (h : t.Later t') (ht : t.Reached) : t'.Reached := by
  induction h with
  | refl => exact ht
  | after _ hr ih => exact .after ih hr

theorem Later.extends (h : t.Later t') (ht : t.Reached) : t.Extends t' := by
  induction h with
  | refl => exact .refl t
  | after hlater hr ih =>
    obtain ⟨hi, hc⟩ := (hlater.reached ht).invariant
    exact ih.trans (hi.after hc hr).1

/-- Two requests for a function type, with any requests between them, give the same type exactly if they ask for the same result and the same
parameters with the same pass modes; and what each gives has exactly the signature that was asked for. -/
theorem Reached.functions_apart (h : t.Reached) (hs : ∀ x ∈ s.types, x < t.entries.length) (hlater : (t.function s).2.Later t')
    (hs' : ∀ x ∈ s'.types, x < t'.entries.length) :
    ((t.function s).1 = (t'.function s').1 ↔ s = s') ∧ ((t.function s).2.entry (t.function s).1).signature? = some s ∧
      ((t'.function s').2.entry (t'.function s').1).signature? = some s' := by
  have hreached : (t.function s).2.Reached := .after (r := .function s) h hs
  have hreached' := hlater.reached hreached
  obtain ⟨e, he, hshape, hm⟩ := h.named.function_entry hs
  obtain ⟨e', he', hshape', -⟩ := hreached'.named.function_entry hs'
  -- the first entry is still where it was when the second type is asked for
  have hlate := (hlater.extends hreached).getElem? he
  refine ⟨⟨fun hid => ?_, ?_⟩, by rw [entry_eq he, signature?_eq_some, hshape], by rw [entry_eq he', signature?_eq_some, hshape']⟩
  · have hboth : t'.Extends (t'.function s').2 := t'.extends_insert _
    rw [← hid, hboth.getElem? hlate] at he'
    cases he'
    exact Shape.function.inj (hshape.symm.trans hshape')
  · rintro rfl
    have hl := hreached'.invariant.1.lookup? hlate
    rw [decorated_plain hm, ((hreached'.named.spelled _ _ hlate).signature s hshape).1] at hl
    have hfound : t'.function s = ((t.function s).1, t') := insert_found ((congrArg t'.lookup? (decorated_plain rfl)).trans hl)
    rw [hfound]

theorem reached_operationTable : operationTable.Reached := by
  have hword : ∀ {name : String}, (!name.toList.isEmpty && name.toList.all Text.continuesWord) = true → IsWord name := isWord_iff.mpr
  refine .after (.after (.after (.after (.initial false) ⟨hword (by decide +kernel), by decide +kernel⟩) ?_)
    ⟨hword (by decide +kernel), by decide +kernel⟩) ⟨hword (by decide +kernel), by decide +kernel⟩
  exact List.forall_mem_cons.mpr ⟨by decide +kernel, List.forall_mem_singleton.mpr (by decide +kernel)⟩

/-- A function over operations, of which the first is passed in a mode. -/
def applySignature (mode : PassMode) : Signature :=
  ⟨primitive .i32 + 1, [(32, mode), (35, .view)]⟩

/-- Function types over function types that differ in one pass mode are different types. -/
theorem Reached.functions_apart_operation :
    operationTable.Reached ∧ (operationTable.function (applySignature .ref)).1 ≠
      ((operationTable.function (applySignature .ref)).2.function (applySignature .view)).1 := by
  have hin : ∀ x ∈ (applySignature .ref).types, x < operationTable.entries.length := by decide +kernel
  have hin' : ∀ x ∈ (applySignature .view).types, x < (operationTable.function (applySignature .ref)).2.entries.length := by
    decide +kernel
  exact ⟨reached_operationTable, fun heq =>
    absurd ((Reached.functions_apart reached_operationTable hin .refl hin').1.mp heq) (by decide)⟩

end TypeTable

end Ember
