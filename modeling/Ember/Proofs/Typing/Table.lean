import Ember.Proofs.Tree.Grammar
import Mathlib.Data.List.Nodup

/-!
# The type table stays in order

A table grows at its end only, so what was known about a type stays known. In a table in order (`Valid`), an alias comes after its target
and is represented like it, every mutable type has a plain one of the same name, and the name of a function type tells its signature.
Types that are alike have the same representation and are of the same kind.
-/

namespace Ember

/-- What stands behind a word: it does not go on with the word. -/
def Cut (rest : List Char) : Prop :=
  ∀ c ∈ rest.head?, Text.continuesWord c = false

/-- What stands behind the name of a type: nothing, the next parameter, or the end of the parameters. -/
def Closed (rest : List Char) : Prop :=
  ∀ c ∈ rest.head?, c = ',' ∨ c = ')'

variable {rest : List Char}

theorem closed_nil : Closed [] :=
  nofun

theorem Closed.cut (h : Closed rest) : Cut rest := by
  intro c hc
  rcases h c hc with rfl | rfl <;> decide

theorem Closed.not_paren (h : Closed rest) : '(' ∉ rest.head? :=
  fun hc => absurd (h '(' hc) (by decide)

theorem cut_cons {c : Char} (h : Text.continuesWord c = false) : Cut (c :: rest) := by
  rintro d ⟨⟩
  exact h

/-- A run of characters of one class can be told from what stands behind it, which does not go on with the class. -/
theorem run_append {p : Char → Bool} {w w' r r' : List Char} (hw : ∀ c ∈ w, p c = true) (hw' : ∀ c ∈ w', p c = true)
    (hr : ∀ c ∈ r.head?, p c = false) (hr' : ∀ c ∈ r'.head?, p c = false) (h : w ++ r = w' ++ r') : w = w' ∧ r = r' := by
  have htake : ∀ {w r : List Char}, (∀ c ∈ w, p c = true) → (∀ c ∈ r.head?, p c = false) → (w ++ r).takeWhile p = w := by
    intro w r hw hr
    rw [List.takeWhile_append_of_pos hw]
    cases r with
    | nil => simp
    | cons c r => simp [hr c rfl]
  have hwords : w = w' := by rw [← htake hw hr, h, htake hw' hr']
  subst hwords
  exact ⟨rfl, List.append_cancel_left h⟩

/-- A word has no blank, comma or parenthesis. -/
theorem IsWord.not_mem {name : String} (h : IsWord name) {c : Char} (hc : Text.continuesWord c = false) : c ∉ name.toList :=
  fun hm => by simp [h.2 c hm] at hc

/-- The types of which a function type is made. -/
def Signature.types (s : Signature) : List TypeId :=
  s.ret :: s.params.map (·.1)

/-- Values stay different if the value of one more element is new. -/
theorem nodup_map_concat {α β : Type} {g : α → β} {l : List α} {a : α} (h : (l.map g).Nodup) (hnew : ∀ x ∈ l, g x ≠ g a) :
    ((l ++ [a]).map g).Nodup := by
  simpa [List.nodup_append, h] using hnew

namespace TypeTable

variable {t t' : TypeTable} {id : TypeId} {e : TypeEntry}

/-- The type is in the table. -/
abbrev Has (t : TypeTable) (id : TypeId) : Prop :=
  id < t.entries.length

/-- A table with more entries. -/
structure Extends (t t' : TypeTable) : Prop where
  entries : t.entries <+: t'.entries
  debugInfo : t'.debugInfo = t.debugInfo

theorem Extends.refl (t : TypeTable) : t.Extends t :=
  ⟨List.prefix_rfl, rfl⟩

theorem Extends.trans {t'' : TypeTable} (h : t.Extends t') (h' : t'.Extends t'') : t.Extends t'' :=
  ⟨h.entries.trans h'.entries, h'.debugInfo.trans h.debugInfo⟩

theorem Extends.length_le (h : t.Extends t') : t.entries.length ≤ t'.entries.length :=
  h.entries.length_le

theorem Extends.getElem? (h : t.Extends t') (he : t.entries[id]? = some e) : t'.entries[id]? = some e := by
  obtain ⟨more, hmore⟩ := h.entries
  rw [← hmore, List.getElem?_append_left (List.getElem?_eq_some_iff.mp he).1]
  exact he

/-- An entry of a longer table is the one it was. -/
theorem Extends.entry (h : t.Extends t') (hid : t.Has id) : t'.entry id = t.entry id := by
  unfold TypeTable.entry
  rw [h.getElem? (List.getElem?_eq_getElem hid), List.getElem?_eq_getElem hid]

theorem entry_eq (h : t.entries[id]? = some e) : t.entry id = e := by
  rw [entry, h, Option.getD_some]

theorem exists_entry (hid : t.Has id) : ∃ e, t.entries[id]? = some e :=
  ⟨_, List.getElem?_eq_getElem hid⟩

theorem lt_of_entry (he : t.entries[id]? = some e) : t.Has id :=
  (List.getElem?_eq_some_iff.mp he).1

/-- An alias comes after its target. -/
def Ordered (t : TypeTable) : Prop :=
  ∀ (id : TypeId) (e : TypeEntry) (target : TypeId), t.entries[id]? = some e → e.shape = .alias target → target < id

variable {target : TypeId} {s : Signature} {name : String} {r : TypeId × TypeTable} {loc : Loc}

theorem aliasOf?_eq_some : e.aliasOf? = some target ↔ e.shape = .alias target := by
  unfold TypeEntry.aliasOf?
  split
  · rename_i heq
    simp [heq]
  · rename_i hno
    simp only [reduceCtorEq, false_iff]
    exact fun h => hno target h

theorem aliasOf?_eq_none : e.aliasOf? = none ↔ ∀ target, e.shape ≠ .alias target := by
  simp only [Option.eq_none_iff_forall_ne_some, ne_eq, aliasOf?_eq_some]

/-- What holds of types that are no alias, and of an alias if it holds of its target, holds of every type. -/
@[elab_as_elim]
theorem Ordered.induction (h : t.Ordered) {P : TypeId → Prop}
    (other : ∀ id e, t.entries[id]? = some e → (∀ target, e.shape ≠ .alias target) → P id)
    (alias' : ∀ id e target, t.entries[id]? = some e → e.shape = .alias target → P target → P id) (hid : t.Has id) : P id := by
  induction id using Nat.strongRecOn with
  | ind id ih =>
    obtain ⟨e, he⟩ := exists_entry hid
    cases ha : e.aliasOf? with
    | none => exact other id e he (aliasOf?_eq_none.mp ha)
    | some target =>
      have hs := aliasOf?_eq_some.mp ha
      have hlt := h id e target he hs
      exact alias' id e target he hs (ih target hlt (Nat.lt_trans hlt hid))

/-- Following an alias twice as far leads nowhere else, once the chain is at its end. -/
theorem Ordered.follow_eq (h : t.Ordered) {fuel fuel' : Nat} (hfuel : id < fuel) (hfuel' : id < fuel') :
    t.follow fuel id = t.follow fuel' id := by
  induction fuel generalizing fuel' id with
  | zero => exact absurd hfuel (Nat.not_lt_zero _)
  | succ fuel ih =>
    cases fuel' with
    | zero => exact absurd hfuel' (Nat.not_lt_zero _)
    | succ fuel' =>
      simp only [follow]
      cases ha : (t.entry id).aliasOf? with
      | none => rfl
      | some target =>
        have hlt : target < id := by
          cases he : t.entries[id]? with
          | none => simp [entry, he, TypeEntry.aliasOf?, default] at ha
          | some e =>
            rw [entry_eq he] at ha
            exact h id e target he (aliasOf?_eq_some.mp ha)
        exact ih (Nat.lt_of_lt_of_le hlt (Nat.le_of_lt_succ hfuel)) (Nat.lt_of_lt_of_le hlt (Nat.le_of_lt_succ hfuel'))

section

variable (he : t.entries[id]? = some e)
include he

/-- An alias is resolved like its target. -/
theorem Ordered.resolveAlias_alias (h : t.Ordered) (hs : e.shape = .alias target) : t.resolveAlias id = t.resolveAlias target := by
  have hid := lt_of_entry he
  have hlt := h id e target he hs
  have hstep : t.follow (t.entries.length + 1) id = t.follow t.entries.length target := by
    simp [follow, entry_eq he, aliasOf?_eq_some.mpr hs]
  rw [resolveAlias, h.follow_eq hid (Nat.lt_succ_of_lt hid), hstep]
  rfl

/-- What is no alias stands for itself. -/
theorem resolveAlias_other (hs : ∀ target, e.shape ≠ .alias target) : t.resolveAlias id = id := by
  have hno : (t.entry id).aliasOf? = none := by rw [entry_eq he, aliasOf?_eq_none.mpr hs]
  unfold resolveAlias
  cases t.entries.length with
  | zero => rfl
  | succ n => simp [follow, hno]

theorem Ordered.kind_alias (h : t.Ordered) (hs : e.shape = .alias target) : t.kind id = t.kind target := by
  rw [kind, kind, h.resolveAlias_alias he hs]

theorem kind_other (hs : ∀ target, e.shape ≠ .alias target) : t.kind id = e.shape.kind := by
  rw [kind, resolveAlias_other he hs, entry_eq he]

end

theorem Extends.ir (h : t.Extends t') (hid : t.Has id) : t'.ir id = t.ir id := by
  rw [TypeTable.ir, TypeTable.ir, h.entry hid]

/-- What an alias stands for in the end comes before it, and is no alias. -/
theorem Ordered.resolveAlias (h : t.Ordered) (hid : t.Has id) : t.resolveAlias id ≤ id ∧ (t.entry (t.resolveAlias id)).aliasOf? = none := by
  refine h.induction (fun id e he hno => ?_) (fun id e target he hs ih => ?_) hid
  · rw [resolveAlias_other he hno, entry_eq he]
    exact ⟨Nat.le_refl _, aliasOf?_eq_none.mpr hno⟩
  · rw [h.resolveAlias_alias he hs]
    exact ⟨Nat.le_trans ih.1 (Nat.le_of_lt (h id e target he hs)), ih.2⟩

theorem Extends.resolveAlias (h : t.Extends t') (ho : t.Ordered) (ho' : t'.Ordered) (hid : t.Has id) :
    t'.resolveAlias id = t.resolveAlias id := by
  refine ho.induction (fun id e he hno => ?_) (fun id e target he hs ih => ?_) hid
  · rw [resolveAlias_other he hno, resolveAlias_other (h.getElem? he) hno]
  · rw [ho.resolveAlias_alias he hs, ho'.resolveAlias_alias (h.getElem? he) hs, ih]

/-- The kind of a type stays what it was. -/
theorem Extends.kind (h : t.Extends t') (ho : t.Ordered) (ho' : t'.Ordered) (hid : t.Has id) : t'.kind id = t.kind id := by
  rw [TypeTable.kind, TypeTable.kind, h.resolveAlias ho ho' hid, h.entry (Nat.lt_of_le_of_lt (ho.resolveAlias hid).1 hid)]

/-! ## Tables in order -/

/-- A plain type that is no function. -/
def Plain (t : TypeTable) (id : TypeId) : Prop :=
  ∃ e, t.entries[id]? = some e ∧ e.mutable = false ∧ ∀ s, e.shape ≠ .function s

/-- An entry in order, at its position. -/
structure EntryOk (t : TypeTable) (id : TypeId) (e : TypeEntry) : Prop where
  primitive : ∀ p, e.shape = .primitive p → e.ir = p.ir
  target : ∀ target, e.shape = .alias target → target < id ∧ e.ir = t.ir target ∧ t.kind target ≠ .function
  signature : ∀ s, e.shape = .function s → e.mutable = false ∧ e.name = t.functionName s ∧
    (∀ x ∈ s.types, x < id ∧ t.Plain x) ∧ ∀ x ∈ s.params, t.isSized x.1 = true
  callable : ∀ s, e.shape = .function s → ∃ params ret, e.ir = .function params ret
  word : (∀ s, e.shape ≠ .function s) → IsWord e.name
  plain : e.mutable = true → ∃ id' e', t.entries[id']? = some e' ∧ e'.mutable = false ∧ e'.name = e.name ∧ e'.ir = e.ir ∧
    t.kind id' = t.kind id

/-- A table in order. -/
structure Valid (t : TypeTable) : Prop where
  start : (initial t.debugInfo).entries <+: t.entries
  distinct : (t.entries.map (·.decorated)).Nodup
  entryOk : ∀ id e, t.entries[id]? = some e → t.EntryOk id e

theorem Valid.ordered (h : t.Valid) : t.Ordered :=
  fun id e target he hs => ((h.entryOk id e he).target target hs).1

theorem Plain.lt (h : t.Plain id) : t.Has id := by
  obtain ⟨e, he, -⟩ := h
  exact lt_of_entry he

theorem Plain.extends (h : t.Plain id) (hx : t.Extends t') : t'.Plain id := by
  obtain ⟨e, he, hm, hs⟩ := h
  exact ⟨e, hx.getElem? he, hm, hs⟩

theorem Extends.nameOf (h : t.Extends t') (hid : t.Has id) : t'.nameOf id = t.nameOf id := by
  rw [TypeTable.nameOf, TypeTable.nameOf, h.entry hid]

/-- The name of a function type stays what it was. -/
theorem Extends.functionName (h : t.Extends t') (hs : ∀ x ∈ s.types, t.Has x) : t'.functionName s = t.functionName s := by
  have hret : t'.nameOf s.ret = t.nameOf s.ret := h.nameOf (hs _ List.mem_cons_self)
  have hparams : s.params.map t'.parameterName = s.params.map t.parameterName := by
    refine List.map_congr_left fun x hx => ?_
    have hname : t'.nameOf x.1 = t.nameOf x.1 := h.nameOf (hs _ (List.mem_cons_of_mem _ (List.mem_map_of_mem hx)))
    obtain ⟨id, mode⟩ := x
    cases mode <;> simp only [TypeTable.parameterName, hname]
  rw [TypeTable.functionName, TypeTable.functionName, hret, hparams]

/-- An entry in order stays in order. -/
theorem EntryOk.extends (h : t.EntryOk id e) (he : t.entries[id]? = some e) (hx : t.Extends t')
    (ho : t.Ordered) (ho' : t'.Ordered) : t'.EntryOk id e := by
  have hid := lt_of_entry he
  have hkind : ∀ {id}, t.Has id → t'.kind id = t.kind id := hx.kind ho ho'
  refine ⟨h.primitive, fun target hs => ?_, fun s hs => ?_, h.callable, h.word, fun hm => ?_⟩
  · obtain ⟨hlt, hir, hk⟩ := h.target target hs
    have hlen := Nat.lt_trans hlt hid
    exact ⟨hlt, by rw [hx.ir hlen, hir], by rwa [hkind hlen]⟩
  · obtain ⟨hm, hn, hplain, hsized⟩ := h.signature s hs
    refine ⟨hm, ?_, fun x hxs => ⟨(hplain x hxs).1, (hplain x hxs).2.extends hx⟩, fun x hxs => ?_⟩
    · rw [hn, hx.functionName fun x hxs => (hplain x hxs).2.lt]
    · rw [isSized, hkind (hplain x.1 (List.mem_cons_of_mem _ (List.mem_map_of_mem hxs))).2.lt]
      exact hsized x hxs
  · obtain ⟨id', e', he', hm', hn', hi', hk'⟩ := h.plain hm
    refine ⟨id', e', hx.getElem? he', hm', hn', hi', ?_⟩
    rw [hkind (lt_of_entry he'), hkind hid, hk']

/-- The table with one more entry. -/
def push (t : TypeTable) (e : TypeEntry) : TypeTable :=
  { t with entries := t.entries ++ [e] }

theorem extends_push (t : TypeTable) (e : TypeEntry) : t.Extends (t.push e) :=
  ⟨List.prefix_append _ _, rfl⟩

theorem getElem?_push (t : TypeTable) (e : TypeEntry) : (t.push e).entries[t.entries.length]? = some e := by
  simp [push]

theorem lookup?_eq_some (h : t.lookup? name = some id) : ∃ e, t.entries[id]? = some e ∧ e.decorated = name := by
  obtain ⟨hlt, heq, -⟩ := List.findIdx?_eq_some_iff_getElem.mp h
  exact ⟨_, List.getElem?_eq_getElem hlt, by simpa using heq⟩

theorem lookup?_eq_none (h : t.lookup? name = none) : name ∉ t.entries.map (·.decorated) := by
  rw [lookup?, List.findIdx?_eq_none_iff] at h
  rintro hm
  obtain ⟨e, he, rfl⟩ := List.mem_map.mp hm
  simpa using h e he

/-- If decorated names differ, every entry is found by its own. -/
theorem lookup?_decorated (hdistinct : (t.entries.map (·.decorated)).Nodup) (he : t.entries[id]? = some e) :
    t.lookup? e.decorated = some id := by
  cases hl : t.lookup? e.decorated with
  | none => exact absurd (List.mem_map_of_mem (List.mem_of_getElem? he)) (lookup?_eq_none hl)
  | some id' =>
    obtain ⟨e', he', hd⟩ := lookup?_eq_some hl
    have hmap : ∀ {i : Nat} {x : TypeEntry}, t.entries[i]? = some x → (t.entries.map (·.decorated))[i]? = some x.decorated := by
      intro i x hx
      rw [List.getElem?_map, hx]
      rfl
    rw [(List.getElem?_inj (by simpa using (lt_of_entry he')) hdistinct).mp
      ((hmap he').trans (hd ▸ (hmap he).symm))]

theorem Valid.lookup? (h : t.Valid) (he : t.entries[id]? = some e) : t.lookup? e.decorated = some id :=
  lookup?_decorated h.distinct he

theorem getElem?_push_cases {e x : TypeEntry} {i : Nat} (hx : (t.push e).entries[i]? = some x) :
    t.entries[i]? = some x ∨ i = t.entries.length ∧ x = e := by
  rcases Nat.lt_or_ge i t.entries.length with hlt | hge
  · exact .inl (by rwa [TypeTable.push, List.getElem?_append_left hlt] at hx)
  · rw [TypeTable.push, List.getElem?_append_right hge] at hx
    have hlt := (List.getElem?_eq_some_iff.mp hx).1
    have heq : i = t.entries.length := by
      simp only [List.length_singleton] at hlt
      omega
    subst heq
    simp only [Nat.sub_self, List.getElem?_cons_zero, Option.some.injEq] at hx
    exact .inr ⟨rfl, hx.symm⟩

/-- An entry with a new decorated name leaves decorated names different. -/
theorem distinct_push (h : (t.entries.map (·.decorated)).Nodup) (hnew : t.lookup? e.decorated = none) :
    ((t.push e).entries.map (·.decorated)).Nodup :=
  nodup_map_concat h fun _ hx hd => lookup?_eq_none hnew (hd ▸ List.mem_map_of_mem hx)

/-- A new entry in order keeps the table in order. -/
theorem Valid.push (h : t.Valid) (hnew : t.lookup? e.decorated = none) (htarget : ∀ target, e.shape = .alias target → t.Has target)
    (he : (t.push e).Ordered → (t.push e).EntryOk t.entries.length e) : (t.push e).Valid := by
  have ho : (t.push e).Ordered := by
    intro id x target hx hs
    rcases getElem?_push_cases hx with hx | ⟨rfl, rfl⟩
    · exact h.ordered id x target hx hs
    · exact htarget target hs
  refine ⟨h.start.trans (List.prefix_append _ _), distinct_push h.distinct hnew, fun id x hx => ?_⟩
  rcases getElem?_push_cases hx with hx | ⟨rfl, rfl⟩
  · exact (h.entryOk id x hx).extends hx (t.extends_push e) h.ordered ho
  · exact he ho

/-! ## The initial table -/

/-- The plain entry of a primitive. -/
def plainEntry (debugInfo : Bool) (p : Primitive) : TypeEntry :=
  { name := p.name, mutable := false, shape := .primitive p, ir := p.ir, debug := if debugInfo then p.debug? else none }

theorem getElem?_initial (debugInfo : Bool) (p : Primitive) :
    (initial debugInfo).entries[primitive p]? = some (plainEntry debugInfo p) := by
  cases p <;> rfl

theorem isWord_name (p : Primitive) : IsWord p.name := by
  cases p <;> exact isWord_iff.mpr (by decide +kernel)

theorem valid_initial (debugInfo : Bool) : (initial debugInfo).Valid := by
  refine ⟨List.prefix_rfl, ?_, fun id e he => ?_⟩
  · cases debugInfo <;> decide
  · obtain ⟨p, -, hp⟩ := List.mem_flatMap.mp (List.mem_of_getElem? he)
    obtain ⟨mutable, -, rfl⟩ := List.mem_map.mp hp
    refine ⟨fun q hq => ?_, fun target hs => ?_, fun s hs => ?_, fun s hs => ?_, fun _ => isWord_name p, fun _ => ?_⟩
    · cases hq
      rfl
    · cases hs
    · cases hs
    · cases hs
    · have hplain := getElem?_initial debugInfo p
      refine ⟨primitive p, _, hplain, rfl, rfl, rfl, ?_⟩
      rw [kind_other hplain (by simp [plainEntry]), kind_other he (by simp)]
      rfl

/-- The plain type of a primitive in a table in order. -/
theorem Valid.primitive (h : t.Valid) (p : Primitive) : t.entries[TypeTable.primitive p]? = some (plainEntry t.debugInfo p) := by
  obtain ⟨more, hmore⟩ := h.start
  have hp := getElem?_initial t.debugInfo p
  rw [← hmore, List.getElem?_append_left (lt_of_entry hp)]
  exact hp

theorem Valid.ir_primitive (h : t.Valid) (p : Primitive) : t.ir (TypeTable.primitive p) = p.ir := by
  rw [ir, entry_eq (h.primitive p)]
  rfl

theorem Valid.kind_primitive (h : t.Valid) (p : Primitive) : t.kind (TypeTable.primitive p) = .primitive p := by
  rw [kind_other (h.primitive p) (by simp [plainEntry])]
  rfl

/-! ## Kinds and representations -/

/-- What is known of a type by its kind: how it is represented, and whether it is a function type as it stands. -/
theorem Valid.kind_cases (h : t.Valid) (hid : t.Has id) : (∃ p, t.kind id = .primitive p ∧ t.ir id = p.ir) ∨
      t.kind id = .function ∧ (∃ e s, t.entries[id]? = some e ∧ e.shape = .function s ∧ e.mutable = false) ∧
        ∃ params ret, t.ir id = .function params ret := by
  refine h.ordered.induction (fun id e he hno => ?_) (fun id e target he hs ih => ?_) hid
  · have hok := h.entryOk id e he
    rw [kind_other he hno, ir, entry_eq he]
    match hs : e.shape with
    | .alias target => exact absurd hs (hno target)
    | .primitive p => exact .inl ⟨p, rfl, hok.primitive p hs⟩
    | .function s => exact .inr ⟨rfl, ⟨e, s, he, hs, (hok.signature s hs).1⟩, hok.callable s hs⟩
  · obtain ⟨-, hir, hk⟩ := (h.entryOk id e he).target target hs
    rw [h.ordered.kind_alias he hs, ir, entry_eq he, hir]
    exact ih.imp_right fun hf => absurd hf.1 hk

theorem signature?_eq_some : e.signature? = some s ↔ e.shape = .function s := by
  unfold TypeEntry.signature?
  split
  · rename_i heq
    simp [heq]
  · rename_i hno
    simp only [reduceCtorEq, false_iff]
    exact hno s

/-- A plain type is no function type. -/
theorem Valid.kind_plain (h : t.Valid) (hp : t.Plain id) : t.kind id ≠ .function := by
  intro hf
  obtain ⟨e, he, -, hs⟩ := hp
  rcases h.kind_cases (lt_of_entry he) with ⟨p, hk, -⟩ | ⟨-, ⟨e', s, he', hs', -⟩, -⟩
  · rw [hk] at hf
    cases hf
  · rw [he] at he'
    cases he'
    exact hs s hs'

/-- The types of which a function type is made are plain types that come before it. -/
theorem Valid.signature (h : t.Valid) (hid : t.Has id) (hs : (t.entry id).signature? = some s) : ∀ x ∈ s.types, x < id ∧ t.Plain x := by
  obtain ⟨e, he⟩ := exists_entry hid
  rw [entry_eq he] at hs
  exact ((h.entryOk id e he).signature s (signature?_eq_some.mp hs)).2.2.1

/-! ## Mutable types and aliases -/

theorem decorated_plain (hm : e.mutable = false) : e.decorated = e.name := by
  simp [TypeEntry.decorated, TypeEntry.decorate, hm]

theorem decorated_mutable (hm : e.mutable = true) : e.decorated = "mut " ++ e.name := by
  simp [TypeEntry.decorated, TypeEntry.decorate, hm]

theorem unqualified_of_plain (he : t.entries[id]? = some e) (hm : e.mutable = false) : t.unqualified id = id := by
  simp [unqualified, entry_eq he, hm]

/-- The plain type of a name is what a mutable type of the name leads to. -/
theorem unqualified_of_mutable (hdistinct : (t.entries.map (·.decorated)).Nodup) {p : TypeId} {e' : TypeEntry}
    (he : t.entries[id]? = some e) (he' : t.entries[p]? = some e') (hm : e.mutable = true) (hm' : e'.mutable = false)
    (hname : e'.name = e.name) : t.unqualified id = p ∧ t.immutableOf id = (p, t) := by
  have hl := lookup?_decorated hdistinct he'
  rw [decorated_plain hm', hname] at hl
  refine ⟨by simp [unqualified, entry_eq he, hm, hl], ?_⟩
  simp [immutableOf, entry_eq he, hm, insert, TypeEntry.decorated, TypeEntry.decorate, hl]

/-- A table in which names tell types apart, an alias is like the earlier type it stands for, and a mutable type like the plain one. -/
structure Paired (t : TypeTable) : Prop where
  distinct : (t.entries.map (·.decorated)).Nodup
  ordered : t.Ordered
  target : ∀ (id : TypeId) (e : TypeEntry) (target : TypeId), t.entries[id]? = some e → e.shape = .alias target → t.ir target = e.ir
  plain : ∀ (id : TypeId) (e : TypeEntry), t.entries[id]? = some e → e.mutable = true →
    ∃ (p : TypeId) (e' : TypeEntry), t.entries[p]? = some e' ∧ e'.mutable = false ∧ e'.name = e.name ∧ e'.ir = e.ir ∧ t.kind p = t.kind id

theorem Valid.paired (h : t.Valid) : t.Paired where
  distinct := h.distinct
  ordered := h.ordered
  target id e target he hs := ((h.entryOk id e he).target target hs).2.1.symm
  plain id e he := (h.entryOk id e he).plain

/-- A mutable type and the plain type of the same name are of one kind, and represented alike. -/
theorem Paired.unqualified (h : t.Paired) (hid : t.Has id) : t.Has (t.unqualified id) ∧
    t.ir (t.unqualified id) = t.ir id ∧ t.kind (t.unqualified id) = t.kind id ∧ (t.entry (t.unqualified id)).mutable = false := by
  obtain ⟨e, he⟩ := exists_entry hid
  cases hm : e.mutable with
  | false =>
    rw [unqualified_of_plain he hm]
    exact ⟨hid, rfl, rfl, by rw [entry_eq he, hm]⟩
  | true =>
    obtain ⟨p, e', he', hm', hname, hir, hkind⟩ := h.plain id e he hm
    rw [(unqualified_of_mutable h.distinct he he' hm hm' hname).1, ir, ir, entry_eq he, entry_eq he']
    exact ⟨lt_of_entry he', hir, hkind, hm'⟩

/-- The plain type of the same name is there. -/
theorem Paired.immutableOf_eq (h : t.Paired) (hid : t.Has id) : t.immutableOf id = (t.unqualified id, t) := by
  obtain ⟨e, he⟩ := exists_entry hid
  cases hm : e.mutable with
  | false => simp [TypeTable.immutableOf, entry_eq he, hm, unqualified_of_plain he hm]
  | true =>
    obtain ⟨p, e', he', hm', hname, -⟩ := h.plain id e he hm
    obtain ⟨hu, hi⟩ := unqualified_of_mutable h.distinct he he' hm hm' hname
    rw [hi, hu]

/-- An alias and what it stands for are of one kind, and represented alike. -/
theorem Paired.resolveAlias (h : t.Paired) (hid : t.Has id) :
    t.ir (t.resolveAlias id) = t.ir id ∧ t.kind (t.resolveAlias id) = t.kind id := by
  refine h.ordered.induction (fun id e he hno => ?_) (fun id e target he hs ih => ?_) hid
  · rw [resolveAlias_other he hno]
    exact ⟨rfl, rfl⟩
  · rw [h.ordered.resolveAlias_alias he hs, h.ordered.kind_alias he hs, ih.1, h.target id e target he hs, ir, entry_eq he]
    exact ⟨rfl, ih.2⟩

/-- What is left of a type without mutability and aliases is of the same kind, and represented alike. -/
theorem Paired.core (h : t.Paired) (hid : t.Has id) : t.ir (t.core id) = t.ir id ∧ t.kind (t.core id) = t.kind id := by
  obtain ⟨hlt, hir₁, hkind₁, -⟩ := h.unqualified hid
  obtain ⟨hir₂, hkind₂⟩ := h.resolveAlias hlt
  obtain ⟨-, hir₃, hkind₃, -⟩ := h.unqualified (Nat.lt_of_le_of_lt (h.ordered.resolveAlias hlt).1 hlt)
  exact ⟨by rw [TypeTable.core, hir₃, hir₂, hir₁], by rw [TypeTable.core, hkind₃, hkind₂, hkind₁]⟩

/-- Types that are alike are represented alike, and of one kind; function types that are alike are the same. -/
theorem Valid.alike (h : t.Valid) {a b : TypeId} (ha : t.Has a) (hb : t.Has b)
    (hab : t.alike a b = true) : t.ir a = t.ir b ∧ t.kind a = t.kind b ∧ (t.kind a = .function → a = b) := by
  have hcore : ∀ {id}, t.Has id → t.kind id = .function → t.core id = id := by
    intro id hid hf
    rcases h.kind_cases hid with ⟨p, hp, -⟩ | ⟨-, ⟨e, s, he, hs, hm⟩, -⟩
    · rw [hp] at hf
      cases hf
    · have hu := unqualified_of_plain he hm
      rw [core, hu, resolveAlias_other he (by simp [hs]), hu]
  have heq : t.core a = t.core b := by simpa [TypeTable.alike] using hab
  obtain ⟨hira, hka⟩ := h.paired.core ha
  obtain ⟨hirb, hkb⟩ := h.paired.core hb
  have hkind : t.kind a = t.kind b := by rw [← hka, heq, hkb]
  exact ⟨by rw [← hira, heq, hirb], hkind, fun hf => by rw [← hcore ha hf, heq, hcore hb (hkind ▸ hf)]⟩

/-! ## Names -/

/-- The first characters of the name of a function type. -/
theorem toList_functionName (t : TypeTable) (s : Signature) : ∃ rest, (t.functionName s).toList = 'd' :: 'e' :: 'f' :: '(' :: rest := by
  refine ⟨(", ".intercalate (s.params.map t.parameterName) ++ "): " ++ t.nameOf s.ret).toList, ?_⟩
  simp [functionName]

theorem functionName_not_mut (s : Signature) (rest : String) : t.functionName s ≠ "mut " ++ rest := by
  intro hrest
  obtain ⟨tail, htail⟩ := t.toList_functionName s
  have := congrArg String.toList hrest
  simp [htail] at this

theorem not_mut_of_isWord (h : IsWord name) (rest : String) : name ≠ "mut " ++ rest := by
  rintro rfl
  exact h.not_mem (c := ' ') (by decide) (by simp)

/-- An entry has the name that belongs to it: a word, or what its signature spells, whose types come before it. -/
structure Spelled (t : TypeTable) (id : TypeId) (e : TypeEntry) : Prop where
  word : (∀ s, e.shape ≠ .function s) → IsWord e.name
  signature : ∀ s, e.shape = .function s → e.name = t.functionName s ∧ ∀ x ∈ s.types, x < id

/-- A table in which decorated names differ, and every entry has the name that belongs to it. -/
structure Named (t : TypeTable) : Prop where
  distinct : (t.entries.map (·.decorated)).Nodup
  spelled : ∀ (id : TypeId) (e : TypeEntry), t.entries[id]? = some e → t.Spelled id e

theorem Valid.named (h : t.Valid) : t.Named where
  distinct := h.distinct
  spelled id e he := by
    have hok := h.entryOk id e he
    refine ⟨hok.word, fun s hs => ?_⟩
    obtain ⟨-, hname, htypes, -⟩ := hok.signature s hs
    exact ⟨hname, fun x hx => (htypes x hx).1⟩

/-- The name of an entry, without its mark, is a word or begins as the name of a function type does. -/
theorem Named.name_cases (h : t.Named) (he : t.entries[id]? = some e) :
    IsWord e.name ∨ ∃ s, e.shape = .function s ∧ e.name = t.functionName s ∧ ∀ x ∈ s.types, x < id := by
  by_cases hs : ∃ s, e.shape = .function s
  · obtain ⟨s, hs⟩ := hs
    exact .inr ⟨s, hs, (h.spelled id e he).signature s hs⟩
  · exact .inl ((h.spelled id e he).word fun s hes => hs ⟨s, hes⟩)

/-- No name starts with the mark of mutable types. -/
def Unmarked (t : TypeTable) : Prop :=
  ∀ (id : TypeId) (e : TypeEntry), t.entries[id]? = some e → ∀ rest, e.name ≠ "mut " ++ rest

theorem Named.unmarked (h : t.Named) : t.Unmarked := by
  intro id e he rest
  rcases h.name_cases he with hw | ⟨s, -, hs, -⟩
  · exact not_mut_of_isWord hw rest
  · exact hs ▸ functionName_not_mut s rest

/-- A word is the decorated name of a plain type. -/
theorem Named.lookup?_word (h : t.Named) (hname : IsWord name) (hl : t.lookup? name = some id) :
    ∃ e, t.entries[id]? = some e ∧ e.name = name ∧ e.mutable = false ∧ ∀ s, e.shape ≠ .function s := by
  obtain ⟨e, he, hd⟩ := lookup?_eq_some hl
  cases hm : e.mutable with
  | true => exact absurd (hd.symm.trans (decorated_mutable hm)) (not_mut_of_isWord hname _)
  | false =>
    have heq : e.name = name := (decorated_plain hm).symm.trans hd
    refine ⟨e, he, heq, hm, fun s hs => ?_⟩
    obtain ⟨rest, hrest⟩ := t.toList_functionName s
    exact absurd (by simp [← heq, ((h.spelled id e he).signature s hs).1, hrest]) (hname.not_mem (c := '(') (by decide))

/-- A name that is counted nowhere is new. -/
theorem lookup?_of_count (hw : IsWord name) (hcount : t.count name = 0) : t.lookup? name = none := by
  cases hl : t.lookup? name with
  | none => rfl
  | some id =>
    obtain ⟨e, he, hd⟩ := lookup?_eq_some hl
    cases hm : e.mutable with
    | false =>
      have := List.countP_eq_zero.mp hcount e (List.mem_of_getElem? he)
      simp [← hd, decorated_plain hm] at this
    | true => exact absurd (hd.symm.trans (decorated_mutable hm)) (not_mut_of_isWord hw _)

/-- Two plain types of one name are the same. -/
theorem plain_unique (hdistinct : (t.entries.map (·.decorated)).Nodup) {a b : TypeId} {e' : TypeEntry} (ha : t.entries[a]? = some e)
    (hb : t.entries[b]? = some e') (hm : e.mutable = false) (hm' : e'.mutable = false) (hname : e.name = e'.name) : a = b := by
  have hla := lookup?_decorated hdistinct ha
  have hlb := lookup?_decorated hdistinct hb
  rw [decorated_plain hm, hname] at hla
  rw [decorated_plain hm'] at hlb
  exact Option.some.inj (hla.symm.trans hlb)

/-! ## Growing -/

/-- A step of the table that yields a type represented like another. -/
structure Yields (t : TypeTable) (id : TypeId) (r : TypeId × TypeTable) : Prop where
  grown : t.Extends r.2
  valid : r.2.Valid
  lt : r.1 < r.2.entries.length
  ir : r.2.ir r.1 = t.ir id
  kind : r.2.kind r.1 = t.kind id

theorem insert_found (h : t.lookup? e.decorated = some id) : t.insert e = (id, t) := by
  rw [insert, h]

theorem insert_new (h : t.lookup? e.decorated = none) : t.insert e = (t.entries.length, t.push e) := by
  rw [insert, h]
  rfl

theorem extends_insert (t : TypeTable) (e : TypeEntry) : t.Extends (t.insert e).2 := by
  cases hl : t.lookup? e.decorated with
  | some id =>
    rw [insert_found hl]
    exact .refl t
  | none =>
    rw [insert_new hl]
    exact t.extends_push e

/-- What is found by `mut` and a name is the mutable type of that name. -/
theorem lookup?_mut (hnames : t.Unmarked) (hl : t.lookup? ("mut " ++ name) = some id) :
    ∃ e, t.entries[id]? = some e ∧ e.name = name ∧ e.mutable = true := by
  obtain ⟨e, he, hd⟩ := lookup?_eq_some hl
  cases hm : e.mutable with
  | false =>
    rw [decorated_plain hm] at hd
    exact absurd hd (hnames id e he name)
  | true =>
    rw [decorated_mutable hm] at hd
    exact ⟨e, he, by simpa [String.ext_iff] using hd, hm⟩

/-- The mutable type of a name is the type itself, another one that is there, or a new one. -/
theorem mutableOf_cases (hnames : t.Unmarked) (he : t.entries[id]? = some e) :
    e.mutable = true ∧ t.mutableOf id = (id, t) ∨ e.mutable = false ∧
      ((∃ m x, t.entries[m]? = some x ∧ x.name = e.name ∧ x.mutable = true ∧ t.mutableOf id = (m, t)) ∨
        t.lookup? ("mut " ++ e.name) = none ∧ t.mutableOf id = (t.entries.length, t.push { e with mutable := true })) := by
  have hd : ({ e with mutable := true } : TypeEntry).decorated = "mut " ++ e.name := decorated_mutable rfl
  cases hm : e.mutable with
  | true => exact .inl ⟨rfl, by simp [TypeTable.mutableOf, entry_eq he, hm]⟩
  | false =>
    have heq : t.mutableOf id = t.insert { e with mutable := true } := by simp [TypeTable.mutableOf, entry_eq he, hm]
    refine .inr ⟨rfl, ?_⟩
    rw [heq]
    cases hl : t.lookup? ("mut " ++ e.name) with
    | none => exact .inr ⟨rfl, insert_new (hd ▸ hl)⟩
    | some m =>
      obtain ⟨x, hx, hname, hmx⟩ := lookup?_mut hnames hl
      exact .inl ⟨m, x, hx, hname, hmx, insert_found (hd ▸ hl)⟩

/-- A plain type that is no function may get a mutable companion, of the same kind and representation. -/
theorem Valid.push_mutable (h : t.Valid) (e' : TypeEntry) (he : t.entries[id]? = some e) (hm : e.mutable = false)
    (hs : ∀ s, e.shape ≠ .function s) (hname : e'.name = e.name) (hir : e'.ir = e.ir) (hno : ∀ s, e'.shape ≠ .function s)
    (hprimitive : ∀ p, e'.shape = .primitive p → e.shape = .primitive p)
    (halias : ∀ target, e'.shape = .alias target → t.Has target ∧ t.ir target = e.ir ∧ t.kind target = t.kind id)
    (hnew : t.lookup? e'.decorated = none) : (t.push e').Valid ∧ (t.push e').kind t.entries.length = t.kind id := by
  have hx := t.extends_push e'
  have hok := h.entryOk id e he
  have hget := t.getElem?_push e'
  have hkind : (t.push e').Ordered → (t.push e').kind t.entries.length = t.kind id := by
    intro ho
    match hs' : e'.shape with
    | .alias target =>
      obtain ⟨hlt, -, hk⟩ := halias target hs'
      rw [ho.kind_alias hget hs', hx.kind h.ordered ho hlt, hk]
    | .primitive p =>
      have hse := hprimitive p hs'
      rw [kind_other hget (by simp [hs']), kind_other he (by simp [hse]), hs', hse]
    | .function s => exact absurd hs' (hno s)
  have hvalid : (t.push e').Valid := by
    refine h.push hnew (fun target ht => (halias target ht).1) fun ho => ⟨fun p hp => hir.trans (hok.primitive p (hprimitive p hp)),
      fun target ht => ?_, fun s hf => absurd hf (hno s), fun s hf => absurd hf (hno s), fun _ => hname ▸ hok.word hs, fun _ => ?_⟩
    · obtain ⟨hlt, hti, htk⟩ := halias target ht
      exact ⟨hlt, by rw [hir, hx.ir hlt, hti], by rw [hx.kind h.ordered ho hlt, htk]; exact h.kind_plain ⟨e, he, hm, hs⟩⟩
    · exact ⟨id, e, hx.getElem? he, hm, hname.symm, hir.symm, by rw [hkind ho, hx.kind h.ordered ho (lt_of_entry he)]⟩
  exact ⟨hvalid, hkind hvalid.ordered⟩

/-- The mutable type of the same name is there, or can be added. -/
theorem Valid.mutableOf (h : t.Valid) (hid : t.Has id) (hf : t.kind id ≠ .function) :
    t.Yields id (t.mutableOf id) ∧ ((t.mutableOf id).2.entry (t.mutableOf id).1).mutable = true ∧
      ((t.mutableOf id).2.entry (t.mutableOf id).1).name = (t.entry id).name := by
  obtain ⟨e, he⟩ := exists_entry hid
  rcases mutableOf_cases h.named.unmarked he with ⟨hm, heq⟩ | ⟨hm, ⟨m, x, hx, hname, hmx, heq⟩ | ⟨hl, heq⟩⟩ <;> rw [heq]
  · exact ⟨⟨.refl t, h, hid, rfl, rfl⟩, by rw [entry_eq he, hm], rfl⟩
  · obtain ⟨p, e', he', hm', hname', hir, hkind⟩ := (h.entryOk m x hx).plain hmx
    obtain rfl := plain_unique h.distinct he' he hm' hm (hname'.trans hname)
    cases he.symm.trans he'
    refine ⟨⟨.refl t, h, lt_of_entry hx, ?_, hkind.symm⟩, ?_, ?_⟩
    · rw [TypeTable.ir, TypeTable.ir, entry_eq hx, entry_eq he, hir]
    · rw [entry_eq hx, hmx]
    · rw [entry_eq hx, entry_eq he, hname]
  · have hs : ∀ s, e.shape ≠ .function s := fun s hs => by
      rw [kind_other he (by simp [hs]), hs] at hf
      exact hf rfl
    have halias : ∀ target, e.shape = .alias target → t.Has target ∧ t.ir target = e.ir ∧ t.kind target = t.kind id := by
      intro target ht
      obtain ⟨hlt, hir, -⟩ := (h.entryOk id e he).target target ht
      exact ⟨Nat.lt_trans hlt hid, hir.symm, (h.ordered.kind_alias he ht).symm⟩
    obtain ⟨hvalid, hkind⟩ := h.push_mutable { e with mutable := true } he hm hs rfl rfl hs (fun _ hp => hp) halias
      ((congrArg t.lookup? (decorated_mutable rfl)).trans hl)
    have hget := t.getElem?_push { e with mutable := true }
    refine ⟨⟨t.extends_push _, hvalid, lt_of_entry hget, ?_, hkind⟩, ?_, ?_⟩
    · rw [TypeTable.ir, TypeTable.ir, entry_eq hget, entry_eq he]
    · rw [entry_eq hget]
    · rw [entry_eq hget, entry_eq he]

/-- A type that is written by a word is no function type. -/
theorem Valid.resolve (h : t.Valid) {written : TypeRef} (hw : IsWord written.name) (hr : t.resolve written = .ok r) :
    t.Extends r.2 ∧ r.2.Valid ∧ r.2.Has r.1 ∧ r.2.kind r.1 ≠ .function := by
  unfold TypeTable.resolve at hr
  cases hl : t.lookup? written.name with
  | none => simp [hl] at hr
  | some id =>
    obtain ⟨e, he, -, hm, hs⟩ := h.named.lookup?_word hw hl
    have hid := lt_of_entry he
    have hf : t.kind id ≠ .function := h.kind_plain ⟨e, he, hm, hs⟩
    simp only [hl, Except.ok.injEq] at hr
    subst hr
    split
    · obtain ⟨hy, -⟩ := h.mutableOf hid hf
      exact ⟨hy.grown, hy.valid, hy.lt, by rwa [hy.kind]⟩
    · exact ⟨.refl t, h, hid, hf⟩

/-- The entry of an alias for a plain type. -/
def aliasEntry (t : TypeTable) (name : String) (target : TypeId) : TypeEntry :=
  { name, mutable := false, shape := .alias target, ir := (t.entry target).ir, debug := (t.entry target).debug }

/-- How an alias is entered: first itself, then the mutable twin of what it stands for, then its own. -/
theorem addAlias_eq (hcount : t.count name = 0) :
    let first := t.insert (t.aliasEntry name (t.unqualified target))
    let second := first.2.mutableOf (t.unqualified target)
    let third := second.2.insert { second.2.entry first.1 with mutable := true, shape := .alias second.1 }
    t.addAlias name target loc = .ok (first.1, third.2) := by
  unfold TypeTable.addAlias
  rw [if_neg (by omega)]
  rfl

/-- A name that an alias was entered by was counted nowhere. -/
theorem count_of_addAlias (hr : t.addAlias name target loc = .ok r) : t.count name = 0 := by
  by_contra hne
  rw [TypeTable.addAlias, if_pos (Nat.pos_of_ne_zero hne)] at hr
  cases hr

/-- An alias keeps the table in order. -/
theorem Valid.addAlias (h : t.Valid) (hw : IsWord name) (ht : t.Has target) (hf : t.kind target ≠ .function)
    (hr : t.addAlias name target loc = .ok r) : t.Extends r.2 ∧ r.2.Valid := by
  have hcount := count_of_addAlias hr
  obtain ⟨hlt, hir, hk, -⟩ := h.paired.unqualified ht
  rw [addAlias_eq hcount] at hr
  -- the alias itself
  have hnew : t.lookup? (t.aliasEntry name (t.unqualified target)).decorated = none := lookup?_of_count hw hcount
  generalize hentry : t.aliasEntry name (t.unqualified target) = a at hr hnew
  have hx := t.extends_push a
  have hvalid : (t.push a).Valid := by
    subst hentry
    refine h.push hnew (fun target' hs => ?_) fun ho => ⟨nofun, fun target' hs => ?_, nofun, nofun, fun _ => hw, nofun⟩
    · cases hs
      exact hlt
    · cases hs
      exact ⟨hlt, by rw [hx.ir hlt]; rfl, by rwa [hx.kind h.ordered ho hlt, hk]⟩
  rw [insert_new hnew] at hr
  -- the mutable type of what it stands for
  have hlt' : (t.push a).Has (t.unqualified target) := Nat.lt_of_lt_of_le hlt hx.length_le
  have hk' : (t.push a).kind (t.unqualified target) ≠ .function := by rwa [hx.kind h.ordered hvalid.ordered hlt, hk]
  obtain ⟨hy, -⟩ := hvalid.mutableOf hlt' hk'
  have hsame := hy.grown.kind hvalid.ordered hy.valid.ordered hlt'
  generalize (t.push a).mutableOf (t.unqualified target) = q at hr hy hsame
  have hget := hy.grown.getElem? (t.getElem?_push a)
  rw [entry_eq hget] at hr
  -- the mutable form of the alias
  cases hl : q.2.lookup? ({ a with mutable := true, shape := .alias q.1 } : TypeEntry).decorated with
  | some id =>
    rw [insert_found hl] at hr
    cases hr
    exact ⟨hx.trans hy.grown, hy.valid⟩
  | none =>
    rw [insert_new hl] at hr
    cases hr
    have hkind : q.2.kind t.entries.length = q.2.kind (t.unqualified target) := hy.valid.ordered.kind_alias hget (hentry ▸ rfl)
    refine ⟨(hx.trans hy.grown).trans (extends_push _ _), (hy.valid.push_mutable { a with mutable := true, shape := .alias q.1 } hget
      (hentry ▸ rfl) ?_ rfl rfl nofun nofun ?_ hl).1⟩
    · rw [← hentry]
      exact nofun
    · rintro _ ⟨⟩
      exact ⟨hy.lt, by rw [hy.ir, hx.ir hlt, ← hentry]; rfl, by rw [hy.kind, hkind, hsame]⟩

/-! ## Function types -/

variable {r r' : List Char}

/-- No word with something behind it begins as the name of a function type does. -/
theorem word_ne_functionName {w text : List Char} (hw : ∀ c ∈ w, Text.continuesWord c = true) (hrest : Cut rest) (hparen : '(' ∉ rest.head?)
    (s : Signature) : w ++ rest ≠ (t.functionName s).toList ++ text := by
  intro heq
  obtain ⟨tail, htail⟩ := t.toList_functionName s
  rw [htail] at heq
  have hdef : ∀ c ∈ ['d', 'e', 'f'], Text.continuesWord c = true := List.all_eq_true.mp (by decide)
  obtain ⟨-, rfl⟩ := run_append hw hdef hrest (cut_cons (c := '(') (by decide)) heq
  exact hparen rfl

/-- The name of an entry, without its mark, does not begin with a word and a blank. -/
theorem Named.name_ne_mark (h : t.Named) (he : t.entries[id]? = some e) {w : List Char} (hw : ∀ c ∈ w, Text.continuesWord c = true)
    (hrest : Closed rest) (text : List Char) : e.name.toList ++ rest ≠ w ++ ' ' :: text := by
  intro heq
  rcases h.name_cases he with hword | ⟨s, -, hname, -⟩
  · obtain ⟨-, rfl⟩ := run_append hword.2 hw hrest.cut (cut_cons (by decide)) heq
    exact absurd (hrest ' ' rfl) (by decide)
  · have hcut : Cut (' ' :: text) := cut_cons (by decide)
    exact word_ne_functionName hw hcut (by simp) s (hname ▸ heq.symm)

theorem toList_decorated (e : TypeEntry) : e.decorated.toList = (if e.mutable then ['m', 'u', 't', ' '] else []) ++ e.name.toList := by
  cases hm : e.mutable <;> simp [TypeEntry.decorated, TypeEntry.decorate, hm]

/-- What a pass mode puts before the name of a parameter. -/
def modeMark : PassMode → List Char
  | .copy => []
  | .ref => ['r', 'e', 'f', ' ']
  | .view => ['v', 'i', 'e', 'w', ' ']

theorem toList_parameterName (id : TypeId) (mode : PassMode) :
    (t.parameterName (id, mode)).toList = modeMark mode ++ (t.nameOf id).toList := by
  cases mode <;> simp [parameterName, PassMode.text, modeMark]

theorem toList_functionName_eq (s : Signature) : (t.functionName s).toList = ['d', 'e', 'f', '('] ++
    ([',', ' '].intercalate (s.params.map fun x => (t.parameterName x).toList) ++ ')' :: ([':', ' '] ++ (t.nameOf s.ret).toList)) := by
  simp [functionName, String.toList_intercalate, Function.comp_def]

section

variable (h : t.Named)
include h

/-- No name of a type begins with a pass mode. -/
theorem Named.nameOf_ne_mode (hid : t.Has id) {mode : PassMode} (hmode : mode ≠ .copy) (hrest : Closed rest) (text : List Char) :
    (t.nameOf id).toList ++ rest ≠ modeMark mode ++ text := by
  obtain ⟨e, he⟩ := exists_entry hid
  rw [nameOf, entry_eq he, toList_decorated]
  cases mode with
  | copy => exact absurd rfl hmode
  | ref =>
    cases e.mutable with
    | false => exact h.name_ne_mark he (w := ['r', 'e', 'f']) (List.all_eq_true.mp (by decide)) hrest text
    | true => simp [modeMark]
  | view =>
    cases e.mutable with
    | false => exact h.name_ne_mark he (w := ['v', 'i', 'e', 'w']) (List.all_eq_true.mp (by decide)) hrest text
    | true => simp [modeMark]

/-- The name of a type is not empty, and begins with a character of a word. -/
theorem Named.nameOf_head (hid : t.Has id) : ∃ c cs, (t.nameOf id).toList = c :: cs ∧ Text.continuesWord c = true := by
  obtain ⟨e, he⟩ := exists_entry hid
  rw [nameOf, entry_eq he, toList_decorated]
  cases e.mutable with
  | true => exact ⟨'m', _, rfl, by decide⟩
  | false =>
    rcases h.name_cases he with hw | ⟨s, -, hname, -⟩
    · obtain ⟨c, cs, hcs⟩ := List.exists_cons_of_ne_nil hw.1
      exact ⟨c, cs, hcs, hw.2 c (by simp [hcs])⟩
    · obtain ⟨tail, htail⟩ := t.toList_functionName s
      exact ⟨'d', _, by rw [hname, htail]; rfl, by decide⟩

/-- The name of the type can be told from what stands behind it. -/
def Tells (t : TypeTable) (id : TypeId) : Prop :=
  ∀ {b : TypeId} {r r' : List Char}, b < t.entries.length → Closed r → Closed r' →
    (t.nameOf id).toList ++ r = (t.nameOf b).toList ++ r' → id = b ∧ r = r'

theorem Named.parameterName_append {x y : TypeId × PassMode} (hx : t.Has x.1) (hy : t.Has y.1)
    (htells : t.Tells x.1) (hr : Closed r) (hr' : Closed r') (heq : (t.parameterName x).toList ++ r = (t.parameterName y).toList ++ r') :
    x = y ∧ r = r' := by
  obtain ⟨a, m⟩ := x
  obtain ⟨b, n⟩ := y
  rw [toList_parameterName, toList_parameterName, List.append_assoc, List.append_assoc] at heq
  by_cases hmn : m = n
  · subst hmn
    obtain ⟨rfl, rfl⟩ := htells hy hr hr' (List.append_cancel_left heq)
    exact ⟨rfl, rfl⟩
  · -- one of two different modes puts a mark before a name that has none
    exfalso
    match m, n with
    | .copy, .copy | .ref, .ref | .view, .view => exact hmn rfl
    | .copy, .ref | .copy, .view => exact h.nameOf_ne_mode hx (Ne.symm hmn) hr _ heq
    | .ref, .copy | .view, .copy => exact h.nameOf_ne_mode hy hmn hr' _ heq.symm
    | .ref, .view | .view, .ref => simp [modeMark] at heq

/-- A row of parameters can be told from what stands behind its parenthesis. -/
theorem Named.parameters_append {l l' : List (TypeId × PassMode)} (hl : ∀ x ∈ l, t.Has x.1 ∧ t.Tells x.1)
    (hl' : ∀ y ∈ l', t.Has y.1) (heq : [',', ' '].intercalate (l.map fun x => (t.parameterName x).toList) ++ ')' :: r =
      [',', ' '].intercalate (l'.map fun x => (t.parameterName x).toList) ++ ')' :: r') : l = l' ∧ r = r' := by
  -- no parameter begins with a parenthesis
  have hparen : ∀ {y : TypeId × PassMode} {u v : List Char}, t.Has y.1 → ')' :: u ≠ (t.parameterName y).toList ++ v := by
    rintro ⟨id, mode⟩ u v hy heq
    obtain ⟨c, cs, hcs, hc⟩ := h.nameOf_head hy
    rw [toList_parameterName, hcs] at heq
    cases mode with
    | copy =>
      cases heq
      exact absurd hc (by decide)
    | ref | view => simp [modeMark] at heq
  have hcons : ∀ (x : TypeId × PassMode) (l : List (TypeId × PassMode)) (r : List Char), ∃ tail, Closed tail ∧
      [',', ' '].intercalate ((x :: l).map fun x => (t.parameterName x).toList) ++ ')' :: r = (t.parameterName x).toList ++ tail ∧
      tail = if l = [] then ')' :: r else ',' :: ' ' :: ([',', ' '].intercalate (l.map fun x => (t.parameterName x).toList) ++ ')' :: r) := by
    intro x l r
    cases l with
    | nil => exact ⟨_, fun c hc => .inr (by cases hc; rfl), by simp, rfl⟩
    | cons y l => exact ⟨_, fun c hc => .inl (by cases hc; rfl), by simp [List.intercalate_cons_cons], rfl⟩
  induction l generalizing l' with
  | nil =>
    cases l' with
    | nil => exact ⟨rfl, (List.cons.inj heq).2⟩
    | cons y l' =>
      obtain ⟨tail, -, htail, -⟩ := hcons y l' r'
      exact absurd (heq.trans htail) (hparen (hl' y List.mem_cons_self))
  | cons x l ih =>
    obtain ⟨hx, hmore⟩ := List.forall_mem_cons.mp hl
    obtain ⟨tail, hclosed, htail, hrest⟩ := hcons x l r
    cases l' with
    | nil => exact absurd (heq.symm.trans htail) (hparen hx.1)
    | cons y l' =>
      obtain ⟨hy, hmore'⟩ := List.forall_mem_cons.mp hl'
      obtain ⟨tail', hclosed', htail', hrest'⟩ := hcons y l' r'
      obtain ⟨rfl, hsame⟩ := h.parameterName_append hx.1 hy hx.2 hclosed hclosed' (htail.symm.trans (heq.trans htail'))
      rw [hrest, hrest'] at hsame
      match l, l' with
      | [], [] => exact ⟨rfl, (List.cons.inj hsame).2⟩
      | [], _ :: _ | _ :: _, [] => simp at hsame
      | z :: l, z' :: l' =>
        obtain ⟨htails, rfl⟩ := ih hmore hmore' (by simpa using hsame)
        exact ⟨by rw [htails], rfl⟩

/-- The name of a function type can be told from what stands behind it, if the names of its parts can. -/
theorem Named.functionName_append {s' : Signature} (hs : ∀ x ∈ s.types, t.Has x ∧ t.Tells x)
    (hs' : ∀ x ∈ s'.types, t.Has x) (hr : Closed r) (hr' : Closed r')
    (heq : (t.functionName s).toList ++ r = (t.functionName s').toList ++ r') : s = s' ∧ r = r' := by
  have hparam : ∀ {s : Signature} {x : TypeId × PassMode}, x ∈ s.params → x.1 ∈ s.types :=
    fun hx => List.mem_cons_of_mem _ (List.mem_map_of_mem hx)
  simp only [toList_functionName_eq, List.append_assoc, List.cons_append, List.nil_append, List.cons.injEq, true_and] at heq
  obtain ⟨hparams, hret⟩ := h.parameters_append (fun x hx => hs _ (hparam hx)) (fun x hx => hs' _ (hparam hx)) heq
  obtain ⟨hret', rfl⟩ := (hs _ List.mem_cons_self).2 (hs' _ List.mem_cons_self) hr hr' (by simpa using hret)
  exact ⟨by cases s; cases s'; exact congrArg₂ Signature.mk hret' hparams, rfl⟩

/-- The name of a type can be told from what stands behind it. The parts of a function type come before it, which carries the induction. -/
theorem Named.tells (hid : t.Has id) : t.Tells id := by
  induction id using Nat.strongRecOn with
  | ind id ih =>
    intro b r r' hb hr hr' heq
    obtain ⟨e, he⟩ := exists_entry hid
    obtain ⟨e', he'⟩ := exists_entry hb
    rw [nameOf, nameOf, entry_eq he, entry_eq he', toList_decorated, toList_decorated] at heq
    have hmut : ∀ c ∈ ['m', 'u', 't'], Text.continuesWord c = true := List.all_eq_true.mp (by decide)
    have hsplit : e.mutable = e'.mutable ∧ e.name.toList ++ r = e'.name.toList ++ r' := by
      match hm : e.mutable, hm' : e'.mutable with
      | false, false | true, true => exact ⟨rfl, by simpa [hm, hm'] using heq⟩
      | true, false => exact absurd (by simpa [hm, hm'] using heq.symm) (h.name_ne_mark he' hmut hr' (e.name.toList ++ r))
      | false, true => exact absurd (by simpa [hm, hm'] using heq) (h.name_ne_mark he hmut hr (e'.name.toList ++ r'))
    obtain ⟨hm, hnames⟩ := hsplit
    have hsplit : e.name = e'.name ∧ r = r' := by
      rcases h.name_cases he with hw | ⟨s, -, hname, hlt⟩ <;> rcases h.name_cases he' with hw' | ⟨s', -, hname', hlt'⟩
      · obtain ⟨hname, hrest⟩ := run_append hw.2 hw'.2 hr.cut hr'.cut hnames
        exact ⟨String.toList_inj.mp hname, hrest⟩
      · exact absurd (hname' ▸ hnames) (word_ne_functionName hw.2 hr.cut hr.not_paren s')
      · exact absurd (hname ▸ hnames.symm) (word_ne_functionName hw'.2 hr'.cut hr'.not_paren s)
      · rw [hname, hname'] at hnames ⊢
        have hparts : ∀ x ∈ s.types, t.Has x ∧ t.Tells x := fun x hx =>
          have hx' := Nat.lt_trans (hlt x hx) hid
          ⟨hx', ih x (hlt x hx) hx'⟩
        obtain ⟨rfl, hrest⟩ := h.functionName_append hparts (fun x hx => Nat.lt_trans (hlt' x hx) hb) hr hr' hnames
        exact ⟨rfl, hrest⟩
    have hsame : e.decorated = e'.decorated := by simp [TypeEntry.decorated, hm, hsplit.1]
    exact ⟨Option.some.inj ((lookup?_decorated h.distinct he).symm.trans (hsame ▸ lookup?_decorated h.distinct he')), hsplit.2⟩

variable (hs : ∀ x ∈ s.types, t.Has x)
include hs

/-- The name of a function type tells its signature. -/
theorem Named.functionName_inj {s' : Signature} (hs' : ∀ x ∈ s'.types, t.Has x) (heq : t.functionName s = t.functionName s') : s = s' :=
  (h.functionName_append (fun x hx => ⟨hs x hx, h.tells (hs x hx)⟩) hs' closed_nil closed_nil (by rw [heq])).1

/-- The type that is found by the name of a function type is that type. -/
theorem Named.lookup?_functionName (hl : t.lookup? (t.functionName s) = some id) :
    ∃ e, t.entries[id]? = some e ∧ e.shape = .function s ∧ e.mutable = false := by
  obtain ⟨e, he, hd⟩ := lookup?_eq_some hl
  obtain ⟨tail, htail⟩ := t.toList_functionName s
  have hlist := congrArg String.toList hd
  rw [toList_decorated, htail] at hlist
  cases hm : e.mutable with
  | true => simp [hm] at hlist
  | false =>
    rcases h.name_cases he with hw | ⟨s', hs', hname, hlt⟩
    · exact absurd (by simpa [hm] using congrArg ('(' ∈ ·) hlist) (hw.not_mem (c := '(') (by decide))
    · refine ⟨e, he, ?_, hm⟩
      rw [hs', h.functionName_inj (fun x hx => Nat.lt_trans (hlt x hx) (lt_of_entry he)) hs]
      rw [← hd, ← hname, TypeEntry.decorated, TypeEntry.decorate, hm]
      rfl

/-- The type of a signature is a plain type with that signature. -/
theorem Named.function_entry : ∃ e, (t.function s).2.entries[(t.function s).1]? = some e ∧ e.shape = .function s ∧ e.mutable = false := by
  unfold TypeTable.function
  generalize he : ({ name := t.functionName s, mutable := false, shape := .function s, ir := _ } : TypeEntry) = e
  have hd : e.decorated = t.functionName s := by rw [← he, decorated_plain rfl]
  cases hl : t.lookup? e.decorated with
  | some id =>
    rw [insert_found hl]
    exact h.lookup?_functionName hs (hd ▸ hl)
  | none =>
    rw [insert_new hl]
    exact ⟨e, t.getElem?_push e, by rw [← he], by rw [← he]⟩

end

/-- The function type of a signature is there, or can be added. -/
theorem Valid.function (h : t.Valid) (hs : ∀ x ∈ s.types, t.Plain x) (hsized : ∀ x ∈ s.params, t.isSized x.1 = true) :
    t.Extends (t.function s).2 ∧ (t.function s).2.Valid ∧
      ∃ e, (t.function s).2.entries[(t.function s).1]? = some e ∧ e.shape = .function s := by
  obtain ⟨e, he, hshape, -⟩ := h.named.function_entry fun x hx => (hs x hx).lt
  refine ⟨t.extends_insert _, ?_, e, he, hshape⟩
  unfold TypeTable.function
  generalize he : ({ name := t.functionName s, mutable := false, shape := .function s, ir := _ } : TypeEntry) = e
  cases hl : t.lookup? e.decorated with
  | some id => rwa [insert_found hl]
  | none =>
    rw [insert_new hl]
    have hx := t.extends_push e
    subst he
    refine h.push hl nofun fun ho => ⟨nofun, nofun, fun s' hs' => ?_, fun _ _ => ⟨_, _, rfl⟩, fun hno => absurd rfl (hno s), nofun⟩
    obtain rfl := Shape.function.inj hs'
    refine ⟨rfl, ?_, fun x hxs => ⟨(hs x hxs).lt, (hs x hxs).extends hx⟩, fun x hxs => ?_⟩
    · rw [hx.functionName fun x hxs => (hs x hxs).lt]
    · rw [isSized, hx.kind h.ordered ho (hs x.1 (List.mem_cons_of_mem _ (List.mem_map_of_mem hxs))).lt]
      exact hsized x hxs

end TypeTable

end Ember
