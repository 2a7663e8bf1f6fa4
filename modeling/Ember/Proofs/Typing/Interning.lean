import Ember.Proofs.Typing.Table

/-!
# Types are interned

Whatever a table is asked for, it stays such that a type is known by its position: no two entries have the same decorated name, aliases
come after what they stand for, and every mutable type is the twin of a plain one (`Interned`). So types that differ in mutability and
aliases only are of one kind and represented alike, and stay alike when the table grows (`Reached.interned`).
-/

namespace Ember

namespace TypeTable

variable {t t' : TypeTable} {id : TypeId} {e : TypeEntry}

/-! ## What a table is asked for -/

/-- What a table may be asked for. -/
inductive Request where
  | addAlias (name : String) (target : TypeId) (loc : Loc)
  | function (s : Signature)
  | mutableOf (id : TypeId)
  | immutableOf (id : TypeId)
  | resolve (written : TypeRef)

/-- The type that is asked for, and the table then. -/
def answer (t : TypeTable) : Request → Except Fault (TypeId × TypeTable)
  | .addAlias name target loc => t.addAlias name target loc
  | .function s => .ok (t.function s)
  | .mutableOf id => .ok (t.mutableOf id)
  | .immutableOf id => .ok (t.immutableOf id)
  | .resolve written => t.resolve written

/-- The table after a request, which may have failed. -/
def after (t : TypeTable) (r : Request) : TypeTable :=
  match t.answer r with
  | .ok (_, t') => t'
  | .error _ => t

/-- A request about types of the table; the name of an alias is a word. -/
def Concerns (t : TypeTable) : Request → Prop
  | .addAlias name target _ => IsWord name ∧ target < t.entries.length
  | .function s => ∀ x ∈ s.types, x < t.entries.length
  | .mutableOf id => id < t.entries.length
  | .immutableOf id => id < t.entries.length
  | .resolve _ => True

/-- A table after any number of requests. -/
inductive Reached : TypeTable → Prop where
  | initial (debugInfo : Bool) : Reached (initial debugInfo)
  | after {t : TypeTable} {r : Request} : Reached t → t.Concerns r → Reached (t.after r)

/-! ## Interned types -/

/-- A mutable type and the plain type of the same name. -/
def Twins (t : TypeTable) (m p : TypeId) : Prop :=
  ∃ e e', t.entries[m]? = some e ∧ t.entries[p]? = some e' ∧ e.mutable = true ∧ e'.mutable = false ∧ e.name = e'.name

/-- Shapes of twins: the same, unless they are aliases, which stand for twins. -/
inductive Pairs (t : TypeTable) : Shape → Shape → Prop where
  | same {s : Shape} : (∀ target, s ≠ .alias target) → Pairs t s s
  | targets {m p : TypeId} : t.Twins m p → Pairs t (.alias m) (.alias p)

/-- An entry is as it should be, at its position. -/
structure Settled (t : TypeTable) (id : TypeId) (e : TypeEntry) : Prop where
  name : ∀ rest, e.name ≠ "mut " ++ rest
  target : ∀ target, e.shape = .alias target → target < id ∧ t.ir target = e.ir ∧
    (e.mutable = false → (t.entry target).mutable = false)
  plain : e.mutable = true → ∃ (p : TypeId) (e' : TypeEntry), t.entries[p]? = some e' ∧ e'.mutable = false ∧ e.name = e'.name ∧
    e.ir = e'.ir ∧ t.Pairs e.shape e'.shape

/-- A table in which types are known by their positions. -/
structure Interned (t : TypeTable) : Prop where
  distinct : (t.entries.map (·.decorated)).Nodup
  settled : ∀ (id : TypeId) (e : TypeEntry), t.entries[id]? = some e → t.Settled id e

/-- Every alias has a mutable twin. -/
def Complete (t : TypeTable) : Prop :=
  ∀ (id : TypeId) (e : TypeEntry) (target : TypeId), t.entries[id]? = some e → e.shape = .alias target → e.mutable = false →
    ∃ m, t.Twins m id

section

variable (h : t.Interned) {r : TypeId × TypeTable}

include h

theorem Interned.ordered : t.Ordered :=
  fun id e target he hs => ((h.settled id e he).target target hs).1

theorem Interned.lookup? (he : t.entries[id]? = some e) : t.lookup? e.decorated = some id :=
  lookup?_decorated h.distinct he

theorem Interned.unmarked : t.Unmarked :=
  fun id e he => (h.settled id e he).name

theorem Interned.unqualified_of_twins {m p : TypeId} (htwins : t.Twins m p) : t.unqualified m = p := by
  obtain ⟨e, e', he, he', hm, hm', hname⟩ := htwins
  exact (unqualified_of_mutable h.distinct he he' hm hm' hname.symm).1

/-- The plain type of a name: the type itself, or its twin. -/
theorem Interned.unqualified_cases (he : t.entries[id]? = some e) :
    e.mutable = false ∧ t.unqualified id = id ∨ e.mutable = true ∧ t.Twins id (t.unqualified id) := by
  cases hm : e.mutable with
  | false => exact .inl ⟨rfl, unqualified_of_plain he hm⟩
  | true =>
    obtain ⟨p, e', he', hm', hname, -⟩ := (h.settled id e he).plain hm
    have htwins : t.Twins id p := ⟨e, e', he, he', hm, hm', hname⟩
    exact .inr ⟨rfl, h.unqualified_of_twins htwins ▸ htwins⟩

theorem Interned.unqualified_lt (hid : t.Has id) : ∃ e, t.entries[t.unqualified id]? = some e ∧ e.mutable = false := by
  obtain ⟨e, he⟩ := exists_entry hid
  rcases h.unqualified_cases he with ⟨hm, hu⟩ | ⟨-, e₁, e', -, he', -, hm', -⟩
  · exact ⟨e, by rw [hu, he], hm⟩
  · exact ⟨e', he', hm'⟩

/-- What twins have in common. -/
theorem Interned.twins {m p : TypeId} (htwins : t.Twins m p) :
    ∃ e e', t.entries[m]? = some e ∧ t.entries[p]? = some e' ∧ e.ir = e'.ir ∧ t.Pairs e.shape e'.shape := by
  obtain ⟨e, e', he, he', hm, hm', hname⟩ := htwins
  obtain ⟨p', e'', he'', hm'', hname', hir, hpairs⟩ := (h.settled m e he).plain hm
  obtain rfl := plain_unique h.distinct he' he'' hm' hm'' (hname.symm.trans hname')
  cases he'.symm.trans he''
  exact ⟨e, e', he, he', hir, hpairs⟩

omit h in
theorem Pairs.cases {s s' : Shape} (h : t.Pairs s s') :
    s' = s ∧ (∀ target, s ≠ .alias target) ∨ ∃ m p, s = .alias m ∧ s' = .alias p ∧ t.Twins m p := by
  cases h with
  | same hs => exact .inl ⟨rfl, hs⟩
  | targets htwins => exact .inr ⟨_, _, rfl, rfl, htwins⟩

/-- Twins are of one kind. -/
theorem Interned.kind_twins {m p : TypeId} (htwins : t.Twins m p) : t.kind m = t.kind p := by
  induction m using Nat.strongRecOn generalizing p with
  | ind m ih =>
    obtain ⟨e, e', he, he', -, hpairs⟩ := h.twins htwins
    rcases hpairs.cases with ⟨hsame, hno⟩ | ⟨target, target', hs, hs', htargets⟩
    · rw [kind_other he hno, kind_other he' (hsame ▸ hno), hsame]
    · rw [h.ordered.kind_alias he hs, h.ordered.kind_alias he' hs']
      exact ih target (h.ordered m e target he hs) htargets

theorem Interned.paired : t.Paired where
  distinct := h.distinct
  ordered := h.ordered
  target id e target he hs := ((h.settled id e he).target target hs).2.1
  plain id e he hm := by
    obtain ⟨p, e', he', hm', hname, hir, -⟩ := (h.settled id e he).plain hm
    exact ⟨p, e', he', hm', hname.symm, hir.symm, (h.kind_twins ⟨e, e', he, he', hm, hm', hname⟩).symm⟩

/-! ## Growing -/

omit h in
theorem Twins.extends {m p : TypeId} (h : t.Twins m p) (hx : t.Extends t') : t'.Twins m p := by
  obtain ⟨e, e', he, he', rest⟩ := h
  exact ⟨e, e', hx.getElem? he, hx.getElem? he', rest⟩

omit h in
theorem Pairs.extends {s s' : Shape} (h : t.Pairs s s') (hx : t.Extends t') : t'.Pairs s s' := by
  cases h with
  | same hs => exact .same hs
  | targets htwins => exact .targets (htwins.extends hx)

omit h in
theorem Settled.extends (h : t.Settled id e) (hid : t.Has id) (hx : t.Extends t') : t'.Settled id e where
  name := h.name
  target target hs := by
    obtain ⟨hlt, hir, hm⟩ := h.target target hs
    have hlen := Nat.lt_trans hlt hid
    exact ⟨hlt, by rw [hx.ir hlen, hir], by rwa [hx.entry hlen]⟩
  plain hm := by
    obtain ⟨p, e', he', hm', hname, hir, hpairs⟩ := h.plain hm
    exact ⟨p, e', hx.getElem? he', hm', hname, hir, hpairs.extends hx⟩

theorem Interned.push (hnew : t.lookup? e.decorated = none) (he : (t.push e).Settled t.entries.length e) : (t.push e).Interned := by
  refine ⟨distinct_push h.distinct hnew, fun id x hx => ?_⟩
  rcases getElem?_push_cases hx with hx | ⟨rfl, rfl⟩
  · exact (h.settled id x hx).extends (lt_of_entry hx) (t.extends_push e)
  · exact he

omit h in
/-- Every alias still has a mutable twin if no alias is new. -/
theorem Complete.extends (h : t.Complete) (hx : t.Extends t')
    (hnew : ∀ (id : TypeId) (e : TypeEntry) (target : TypeId), t'.entries[id]? = some e → e.shape = .alias target →
      t.entries[id]? = some e) : t'.Complete := by
  intro id e target he hs hm
  obtain ⟨m, hm⟩ := h id e target (hnew id e target he hs) hs hm
  exact ⟨m, hm.extends hx⟩

/-- What asking for the mutable type of a name does: it is there, or is added. -/
structure Mutates (t : TypeTable) (id : TypeId) (e : TypeEntry) (r : TypeId × TypeTable) : Prop where
  grown : t.Extends r.2
  interned : r.2.Interned
  lt : r.1 < r.2.entries.length
  unqualified : r.2.unqualified r.1 = t.unqualified id
  twins : e.mutable = false → r.2.Twins r.1 id
  new : ∀ (i : TypeId) (x : TypeEntry), r.2.entries[i]? = some x →
    t.entries[i]? = some x ∨ x.name = e.name ∧ ∀ target, x.shape ≠ .alias target

theorem Interned.mutableOf (he : t.entries[id]? = some e)
    (halias : ∀ target, e.shape = .alias target → e.mutable = false → ∃ m, t.Twins m id) : t.Mutates id e (t.mutableOf id) := by
  rcases mutableOf_cases h.unmarked he with ⟨hm, heq⟩ | ⟨hm, ⟨m, x, hx, hname, hmx, heq⟩ | ⟨hl, heq⟩⟩ <;> rw [heq]
  · exact ⟨.refl t, h, lt_of_entry he, rfl, by simp [hm], fun _ _ hx => .inl hx⟩
  · have htwins : t.Twins m id := ⟨x, e, hx, he, hmx, hm, hname⟩
    exact ⟨.refl t, h, lt_of_entry hx, (h.unqualified_of_twins htwins).trans (unqualified_of_plain he hm).symm, fun _ => htwins,
      fun _ _ hx => .inl hx⟩
  · have hx := t.extends_push { e with mutable := true }
    have hget := t.getElem?_push { e with mutable := true }
    -- an alias has a mutable twin already, so what is added is none
    have hshape : ∀ target, e.shape ≠ .alias target := by
      intro target hs
      obtain ⟨m, x, x', hxm, hx', hmx, hmx', hname⟩ := halias target hs hm
      cases he.symm.trans hx'
      refine lookup?_eq_none hl ?_
      rw [← hname, ← decorated_mutable hmx]
      exact List.mem_map_of_mem (List.mem_of_getElem? hxm)
    have hinterned : (t.push { e with mutable := true }).Interned := by
      refine h.push ((congrArg t.lookup? (decorated_mutable rfl)).trans hl)
        ⟨(h.settled id e he).name, fun target hs => absurd hs (hshape target), fun _ => ?_⟩
      exact ⟨id, e, hx.getElem? he, hm, rfl, rfl, .same hshape⟩
    have htwins : (t.push { e with mutable := true }).Twins t.entries.length id := ⟨_, e, hget, hx.getElem? he, rfl, hm, rfl⟩
    refine ⟨hx, hinterned, lt_of_entry hget, (hinterned.unqualified_of_twins htwins).trans (unqualified_of_plain he hm).symm,
      fun _ => htwins, fun i x hix => ?_⟩
    rcases getElem?_push_cases hix with hix | ⟨-, rfl⟩
    · exact .inl hix
    · exact .inr ⟨rfl, hshape⟩

omit h in
theorem Mutates.complete (h : t.Mutates id e r) (hc : t.Complete) : r.2.Complete := by
  refine hc.extends h.grown fun i x target hx hs => ?_
  rcases h.new i x hx with hx | ⟨-, hshape⟩
  · exact hx
  · exact absurd hs (hshape target)

/-- The plain type of a name is always there. -/
theorem Interned.immutableOf_eq (hid : t.Has id) : t.immutableOf id = (t.unqualified id, t) :=
  h.paired.immutableOf_eq hid

/-- A plain type that is no alias keeps types interned. -/
theorem Interned.insert (hc : t.Complete) (hm : e.mutable = false) (hshape : ∀ target, e.shape ≠ .alias target)
    (hname : ∀ rest, e.name ≠ "mut " ++ rest) : t.Extends (t.insert e).2 ∧ (t.insert e).2.Interned ∧ (t.insert e).2.Complete := by
  cases hl : t.lookup? e.decorated with
  | some id =>
    rw [insert_found hl]
    exact ⟨.refl t, h, hc⟩
  | none =>
    rw [insert_new hl]
    refine ⟨t.extends_push e, h.push hl ⟨hname, fun target hs => absurd hs (hshape target), fun hm' => ?_⟩,
      hc.extends (t.extends_push e) fun id x target hx hs => ?_⟩
    · rw [hm] at hm'
      cases hm'
    · rcases getElem?_push_cases hx with hx | ⟨-, rfl⟩
      · exact hx
      · exact absurd hs (hshape target)

theorem Interned.function (hc : t.Complete) (s : Signature) :
    t.Extends (t.function s).2 ∧ (t.function s).2.Interned ∧ (t.function s).2.Complete :=
  h.insert hc rfl nofun (functionName_not_mut s)

/-- An alias is entered together with its mutable twin. -/
theorem Interned.addAlias (hc : t.Complete) {name : String} (hw : IsWord name) {target : TypeId} (ht : t.Has target)
    {loc : Loc} (hr : t.addAlias name target loc = .ok r) : t.Extends r.2 ∧ r.2.Interned ∧ r.2.Complete := by
  have hcount := count_of_addAlias hr
  have hfree := lookup?_of_count hw hcount
  obtain ⟨under, hunder, hplain⟩ := h.unqualified_lt ht
  rw [addAlias_eq hcount] at hr
  -- the alias itself
  generalize ha : t.aliasEntry name (t.unqualified target) = a at hr
  have haname : a.name = name := by rw [← ha]; rfl
  have hamutable : a.mutable = false := by rw [← ha]; rfl
  have hashape : a.shape = .alias (t.unqualified target) := by rw [← ha]; rfl
  have hair : a.ir = under.ir := by rw [← ha, aliasEntry, entry_eq hunder]
  have hxa := t.extends_push a
  have hunder₁ := hxa.getElem? hunder
  have hna : t.lookup? a.decorated = none := by rw [decorated_plain hamutable, haname, hfree]
  have hia : (t.push a).Interned := by
    refine h.push hna ⟨by rw [haname]; exact not_mut_of_isWord hw, fun target' hs => ?_, by simp [hamutable]⟩
    rw [hashape] at hs
    cases hs
    exact ⟨lt_of_entry hunder, by rw [ir, entry_eq hunder₁, hair], fun _ => by rw [entry_eq hunder₁, hplain]⟩
  rw [insert_new hna] at hr
  -- the mutable twin of what it stands for
  have hmut := hia.mutableOf hunder₁ fun target' hs hm => by
    obtain ⟨m, hm⟩ := hc _ _ target' hunder hs hm
    exact ⟨m, hm.extends hxa⟩
  generalize (t.push a).mutableOf (t.unqualified target) = q at hmut hr
  have hget : q.2.entries[t.entries.length]? = some a := hmut.grown.getElem? (t.getElem?_push a)
  have htwins := hmut.twins hplain
  rw [entry_eq hget] at hr
  -- the mutable twin of the alias
  generalize hb : ({ a with mutable := true, shape := .alias q.1 } : TypeEntry) = b at hr
  have hbname : b.name = name := by rw [← hb]; exact haname
  have hbmutable : b.mutable = true := by rw [← hb]
  have hbshape : b.shape = .alias q.1 := by rw [← hb]
  have hbir : b.ir = a.ir := by rw [← hb]
  have hnb : q.2.lookup? b.decorated = none := by
    rw [decorated_mutable hbmutable, hbname]
    cases hl : q.2.lookup? ("mut " ++ name) with
    | none => rfl
    | some m =>
      obtain ⟨x, hx, hname, hm⟩ := lookup?_mut hmut.interned.unmarked hl
      have hno : ∀ {y}, y ∈ t.entries → y.name ≠ name := fun hy hyname => by
        have := List.countP_eq_zero.mp hcount _ hy
        simp [hyname] at this
      rcases hmut.new m x hx with hx | ⟨hux, -⟩
      · rcases getElem?_push_cases hx with hx | ⟨-, rfl⟩
        · exact absurd hname (hno (List.mem_of_getElem? hx))
        · rw [hamutable] at hm
          cases hm
      · exact absurd (hux.symm.trans hname) (hno (List.mem_of_getElem? hunder))
  rw [insert_new hnb] at hr
  cases hr
  have hxb := q.2.extends_push b
  have hgetb := q.2.getElem?_push b
  have hown : (q.2.push b).Twins q.2.entries.length t.entries.length :=
    ⟨b, a, hgetb, hxb.getElem? hget, hbmutable, hamutable, hbname.trans haname.symm⟩
  refine ⟨(hxa.trans hmut.grown).trans hxb, hmut.interned.push hnb ⟨?_, fun target' hs => ?_, fun _ => ?_⟩,
    fun i x target' hx hs hm => ?_⟩
  · rw [hbname]
    exact not_mut_of_isWord hw
  · rw [hbshape] at hs
    cases hs
    obtain ⟨e₁, e₂, he₁, he₂, hir, -⟩ := hmut.interned.twins htwins
    cases (hmut.grown.getElem? hunder₁).symm.trans he₂
    refine ⟨hmut.lt, ?_, by simp [hbmutable]⟩
    rw [ir, entry_eq (hxb.getElem? he₁), hir, hbir, hair]
  · refine ⟨t.entries.length, a, hxb.getElem? hget, hamutable, hbname.trans haname.symm, hbir, ?_⟩
    rw [hbshape, hashape]
    exact .targets (htwins.extends hxb)
  · -- an old alias has its twin, the new one has got it
    rcases getElem?_push_cases hx with hx | ⟨-, rfl⟩
    · rcases hmut.new i x hx with hx | ⟨-, hno⟩
      · rcases getElem?_push_cases hx with hx | ⟨rfl, -⟩
        · obtain ⟨m, hm⟩ := hc i x target' hx hs hm
          exact ⟨m, hm.extends ((hxa.trans hmut.grown).trans hxb)⟩
        · exact ⟨_, hown⟩
      · exact absurd hs (hno target')
    · rw [hbmutable] at hm
      cases hm

/-! ## Tables that are reached -/

omit h in
theorem interned_initial (debugInfo : Bool) : (initial debugInfo).Interned ∧ (initial debugInfo).Complete := by
  have hvalid := valid_initial debugInfo
  have hentry : ∀ {id : TypeId} {e : TypeEntry}, (initial debugInfo).entries[id]? = some e → ∃ p, e.shape = .primitive p ∧
      e.name = p.name ∧ e.ir = p.ir := by
    intro id e he
    obtain ⟨p, -, hp⟩ := List.mem_flatMap.mp (List.mem_of_getElem? he)
    obtain ⟨mutable, -, rfl⟩ := List.mem_map.mp hp
    exact ⟨p, rfl, rfl, rfl⟩
  refine ⟨⟨hvalid.distinct, fun id e he => ?_⟩, fun id e target he hs => ?_⟩
  · obtain ⟨p, hshape, hname, hir⟩ := hentry he
    refine ⟨hname ▸ not_mut_of_isWord (isWord_name p), by simp [hshape], fun _ => ?_⟩
    exact ⟨primitive p, plainEntry debugInfo p, getElem?_initial debugInfo p, rfl, hname, hir, hshape ▸ .same nofun⟩
  · obtain ⟨p, hshape, -⟩ := hentry he
    rw [hshape] at hs
    cases hs

omit h in
theorem after_ok {r : Request} {q : TypeId × TypeTable} (h : t.answer r = .ok q) : t.after r = q.2 := by
  rw [after, h]

omit h in
theorem after_error {r : Request} {fault : Fault} (h : t.answer r = .error fault) : t.after r = t := by
  rw [after, h]

/-- What holds of a table and is kept when an alias, a function type or a mutable type is entered holds after a request. -/
theorem Interned.after_of {P : TypeTable → Prop} (ht : P t) {r : Request} (hr : t.Concerns r)
    (halias : ∀ name target loc q, IsWord name → t.Has target → t.addAlias name target loc = .ok q → P q.2)
    (hfunction : ∀ s : Signature, (∀ x ∈ s.types, t.Has x) → P (t.function s).2)
    (hmutable : ∀ id, t.Has id → P (t.mutableOf id).2) : P (t.after r) := by
  cases ha : t.answer r with
  | error fault => rwa [after_error ha]
  | ok q =>
    rw [after_ok ha]
    cases r with
    | addAlias name target loc => exact halias name target loc q hr.1 hr.2 ha
    | function s =>
      cases ha
      exact hfunction s hr
    | mutableOf id =>
      cases ha
      exact hmutable id hr
    | immutableOf id =>
      cases ha
      rwa [h.immutableOf_eq hr]
    | resolve written =>
      simp only [answer, TypeTable.resolve] at ha
      cases hl : t.lookup? written.name with
      | none => simp [hl] at ha
      | some id =>
        obtain ⟨e, he, -⟩ := lookup?_eq_some hl
        rw [hl] at ha
        cases ha
        split
        · exact hmutable id (lt_of_entry he)
        · exact ht

/-- What a request does to a table in which types are interned. -/
theorem Interned.after (hc : t.Complete) {r : Request} (hr : t.Concerns r) :
    t.Extends (t.after r) ∧ (t.after r).Interned ∧ (t.after r).Complete := by
  refine h.after_of (P := fun t' => t.Extends t' ∧ t'.Interned ∧ t'.Complete) ⟨.refl t, h, hc⟩ hr (fun _ _ _ _ hw ht => h.addAlias hc hw ht)
    (fun s _ => h.function hc s) fun id hid => ?_
  obtain ⟨e, he⟩ := exists_entry hid
  have hmut := h.mutableOf he fun target hs hm => hc id e target he hs hm
  exact ⟨hmut.grown, hmut.interned, hmut.complete hc⟩

omit h in
/-- Whatever a table has been asked for, types are interned. -/
theorem Reached.invariant (h : t.Reached) : t.Interned ∧ t.Complete := by
  induction h with
  | initial debugInfo => exact interned_initial debugInfo
  | after _ hr ih => exact (ih.1.after ih.2 hr).2

/-! ## Types that are alike -/

theorem Interned.resolveAlias (hid : t.Has id) : t.resolveAlias id ≤ id ∧
    (t.entry (t.resolveAlias id)).aliasOf? = none ∧ t.ir (t.resolveAlias id) = t.ir id ∧ t.kind (t.resolveAlias id) = t.kind id :=
  and_assoc.mp ⟨h.ordered.resolveAlias hid, h.paired.resolveAlias hid⟩

theorem Interned.core (hid : t.Has id) : t.ir (t.core id) = t.ir id ∧ t.kind (t.core id) = t.kind id :=
  h.paired.core hid

theorem Interned.core_unqualified (hid : t.Has id) : t.core (t.unqualified id) = t.core id := by
  obtain ⟨e, he, hm⟩ := h.unqualified_lt hid
  rw [TypeTable.core, TypeTable.core, unqualified_of_plain he hm]

/-- Nothing more is left of an alias than of what it stands for. -/
theorem Interned.core_target {target : TypeId} (he : t.entries[id]? = some e) (hs : e.shape = .alias target) :
    t.core target = t.core id := by
  obtain ⟨hlt, -, hplain⟩ := (h.settled id e he).target target hs
  have htarget : t.Has target := Nat.lt_trans hlt (lt_of_entry he)
  rcases h.unqualified_cases he with ⟨hm, hu⟩ | ⟨-, htwins⟩
  · -- a plain alias stands for a plain type
    obtain ⟨x, hx⟩ := exists_entry htarget
    have hxm : x.mutable = false := by
      have := hplain hm
      rwa [entry_eq hx] at this
    rw [TypeTable.core, TypeTable.core, unqualified_of_plain hx hxm, hu, h.ordered.resolveAlias_alias he hs]
  · -- a mutable alias stands for the twin of what its own twin stands for
    obtain ⟨e₁, e', he₁, he', -, hpairs⟩ := h.twins htwins
    cases he.symm.trans he₁
    rcases hpairs.cases with ⟨-, hno⟩ | ⟨m, p, hm, hp, htargets⟩
    · exact absurd hs (hno target)
    · cases hs.symm.trans hm
      rw [TypeTable.core, TypeTable.core, h.unqualified_of_twins htargets, h.ordered.resolveAlias_alias he' hp]

end

/-! ## Types of a longer table -/

section Extends

variable (h : t.Interned) (h' : t'.Interned) (hx : t.Extends t')
include h h' hx

theorem Extends.unqualified (hid : t.Has id) : t'.unqualified id = t.unqualified id := by
  obtain ⟨e, he⟩ := exists_entry hid
  rcases h.unqualified_cases he with ⟨hm, hu⟩ | ⟨-, htwins⟩
  · rw [hu, unqualified_of_plain (hx.getElem? he) hm]
  · exact h'.unqualified_of_twins (htwins.extends hx)

/-- What is left of a type without mutability and aliases stays the same. -/
theorem Extends.core (hid : t.Has id) : t'.core id = t.core id := by
  obtain ⟨hlt₁, -⟩ := h.paired.unqualified hid
  have hle₂ := (h.resolveAlias hlt₁).1
  rw [TypeTable.core, hx.unqualified h h' hid, hx.resolveAlias h.ordered h'.ordered hlt₁,
    hx.unqualified h h' (Nat.lt_of_le_of_lt hle₂ hlt₁)]
  rfl

end Extends

/-- The mutable type of a name is alike to whatever the type is alike to. -/
theorem Interned.core_mutableOf (h : t.Interned) (hc : t.Complete) (hid : t.Has id) :
    (t.mutableOf id).2.core (t.mutableOf id).1 = t.core id ∧ ∀ b < t.entries.length, (t.mutableOf id).2.core b = t.core b := by
  obtain ⟨e, he⟩ := exists_entry hid
  have hmut := h.mutableOf he fun target hs hm => hc id e target he hs hm
  have hu := (h.paired.unqualified hid).1
  have hold : ∀ b < t.entries.length, (t.mutableOf id).2.core b = t.core b := fun b hb => hmut.grown.core h hmut.interned hb
  refine ⟨?_, hold⟩
  rw [← hmut.interned.core_unqualified hmut.lt, hmut.unqualified, hold _ hu, h.core_unqualified hid]

/-- A table with a name for a function type over a named type, asked for a name that is taken. -/
def operationTable : TypeTable :=
  ((((initial false).after (.addAlias "Word" (primitive .i32) .unknown)).after (.function ⟨30, [(31, .ref)]⟩)).after
    (.addAlias "Op" 32 .unknown)).after (.addAlias "Word" 32 .unknown)

end TypeTable

end Ember
