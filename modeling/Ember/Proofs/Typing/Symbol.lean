import Ember.Proofs.Token.Spelling
import Ember.Proofs.Typing.Naming

/-!
# Symbols are told apart

The codes of types are put together without separators. A capital starts a code and no other letter of the code of a primitive is a capital, so a
code and what stands behind it can be read back at every depth (`Reached.code_append`). So types have the same code exactly if they have the same
structure, and functions have the same symbol exactly if they have the same name and types of the same code (`Reached.symbols_apart`).
-/

namespace Ember

/-- What may stand behind a code: nothing, or a capital. -/
def Fresh (rest : List Char) : Prop :=
  ∀ c ∈ rest.head?, c.isUpper = true

theorem fresh_nil : Fresh [] :=
  nofun

/-- The letters that start the code of a type. The others are used between codes. -/
def startsCode (c : Char) : Bool :=
  c.isUpper && c != 'E' && c != 'R'

/-- A letter that may be left out can be told from what stands behind it, which does not start with it. -/
theorem optional_append {x : Char} {b b' : Bool} {l l' : List Char} (hl : x ∉ l.head?) (hl' : x ∉ l'.head?)
    (h : (if b then [x] else []) ++ l = (if b' then [x] else []) ++ l') : b = b' ∧ l = l' := by
  cases b <;> cases b' <;> simp_all [eq_comm]

/-- The code of a primitive is a capital and letters that are none. -/
theorem Primitive.code_letters (p : Primitive) : ∃ c cs, p.code.toList = c :: cs ∧ startsCode c = true ∧ c ≠ 'M' ∧ (c = 'F' → cs ≠ []) ∧
    ∀ d ∈ cs, (!d.isUpper) = true := by
  cases p <;> exact ⟨_, _, by simp [code]; exact ⟨rfl, rfl⟩, by decide, by decide, by decide, List.all_eq_true.mp (by decide)⟩

/-- The code of a primitive is read to the next capital. -/
theorem Primitive.code_append (p : Primitive) {c : Char} {cs r r' : List Char} (hcs : ∀ d ∈ cs, (!d.isUpper) = true) (hr : Fresh r)
    (hr' : Fresh r') (heq : p.code.toList ++ r = c :: (cs ++ r')) : p.code.toList = c :: cs ∧ r = r' := by
  obtain ⟨d, ds, hp, -, -, -, hds⟩ := p.code_letters
  rw [hp] at heq ⊢
  obtain ⟨rfl, htail⟩ := List.cons.inj heq
  obtain ⟨rfl, hrest⟩ := run_append hds hcs (fun c hc => by simp [hr c hc]) (fun c hc => by simp [hr' c hc]) htail
  exact ⟨rfl, hrest⟩

theorem Primitive.code_inj {p p' : Primitive} (h : p.code = p'.code) : p = p' := by
  have hall : ∀ p : Primitive, p ∈ all := by
    intro p
    cases p <;> decide
  exact List.inj_on_of_nodup_map (by decide +kernel) (hall p) (hall p') h

namespace TypeTable

variable {t : TypeTable} {id a b : TypeId} {e : TypeEntry} {s : Signature} {r r' : List Char}

/-- Whether a parameter is passed by reference. -/
def byReference (x : TypeId × PassMode) : Bool :=
  decide (x.2 = .ref)

/-- Types that become the same once aliases are resolved everywhere and the modes `copy` and `view` are one. -/
inductive SameStructure (t : TypeTable) : TypeId → TypeId → Prop where
  | primitive {a b : TypeId} {e e' : TypeEntry} {p : Primitive} :
    t.entries[t.resolveAlias a]? = some e → t.entries[t.resolveAlias b]? = some e' → e.mutable = e'.mutable →
    e.shape = .primitive p → e'.shape = .primitive p → SameStructure t a b
  | function {a b : TypeId} {e e' : TypeEntry} {s s' : Signature} :
    t.entries[t.resolveAlias a]? = some e → t.entries[t.resolveAlias b]? = some e' → e.mutable = e'.mutable →
    e.shape = .function s → e'.shape = .function s' → s.params.map byReference = s'.params.map byReference →
    List.Forall₂ (SameStructure t) s.types s'.types → SameStructure t a b

/-! ## Codes of parts -/

section

variable (h : t.Reached)
include h

theorem Reached.unqualified_le (hid : t.Has id) : t.unqualified id ≤ id := by
  obtain ⟨e, he⟩ := exists_entry hid
  rcases h.invariant.1.unqualified_cases he with ⟨-, hu⟩ | ⟨hm, -⟩
  · exact Nat.le_of_eq hu
  · obtain ⟨p, e', hlt, he', hm', hname⟩ := h.orderly.plain id e he hm
    rw [h.invariant.1.unqualified_of_twins ⟨e, e', he, he', hm, hm', hname.symm⟩]
    exact Nat.le_of_lt hlt

/-- The parts of a type come before it. -/
theorem Reached.parts_lt (he : t.entries[id]? = some e) :
    (∀ target, e.shape = .alias target → t.unqualified target < id) ∧ ∀ s, e.shape = .function s → ∀ x ∈ s.types, x < id := by
  refine ⟨fun target hs => ?_, fun s hs => ((h.orderly.spelled id e he).signature s hs).2⟩
  have hlt := ((h.invariant.1.settled id e he).target target hs).1
  exact Nat.lt_of_le_of_lt (h.unqualified_le (Nat.lt_trans hlt (lt_of_entry he))) hlt

/-- The code of a type does not depend on how much more fuel there is than needed. -/
theorem Reached.codeWithin_eq (hid : t.Has id) {fuel fuel' : Nat} (hfuel : id < fuel) (hfuel' : id < fuel') :
    t.codeWithin fuel id = t.codeWithin fuel' id := by
  induction id using Nat.strongRecOn generalizing fuel fuel' with
  | ind id ih =>
    obtain ⟨e, he⟩ := exists_entry hid
    obtain ⟨fuel, rfl⟩ := Nat.exists_eq_succ_of_ne_zero (Nat.ne_zero_of_lt hfuel)
    obtain ⟨fuel', rfl⟩ := Nat.exists_eq_succ_of_ne_zero (Nat.ne_zero_of_lt hfuel')
    have hpart : ∀ x < id, t.codeWithin fuel x = t.codeWithin fuel' x := fun x hx =>
      ih x hx (Nat.lt_trans hx hid) (Nat.lt_of_lt_of_le hx (Nat.le_of_lt_succ hfuel)) (Nat.lt_of_lt_of_le hx (Nat.le_of_lt_succ hfuel'))
    obtain ⟨htarget, hsignature⟩ := h.parts_lt he
    simp only [codeWithin, entry_eq he]
    match hs : e.shape with
    | .alias target => simp only [hpart _ (htarget target hs)]
    | .primitive p => rfl
    | .function s =>
      obtain ⟨hret, hparams⟩ := List.forall_mem_cons.mp (hsignature s hs)
      have hmap : s.params.map (fun x => (if x.2 = .ref then "R" else "") ++ t.codeWithin fuel x.1) =
          s.params.map fun x => (if x.2 = .ref then "R" else "") ++ t.codeWithin fuel' x.1 :=
        List.map_congr_left fun x hx => by rw [hpart x.1 (hparams x.1 (List.mem_map_of_mem hx))]
      simp only [hpart _ hret, hmap]

/-- A parameter in the code of a function type. -/
def parameterCode (t : TypeTable) (x : TypeId × PassMode) : List Char :=
  (if byReference x then ['R'] else []) ++ (t.code x.1).toList

/-- The letters of a shape, by the codes of its parts. -/
def shapeCode (t : TypeTable) : Shape → List Char
  | .alias target => (t.code (t.unqualified target)).toList
  | .function s => 'F' :: ((t.code s.ret).toList ++ (s.params.flatMap t.parameterCode ++ ['E']))
  | .primitive p => p.code.toList

theorem Reached.code_eq (he : t.entries[id]? = some e) : (t.code id).toList = (if e.mutable then ['M'] else []) ++ t.shapeCode e.shape := by
  have hpart : ∀ x < id, t.codeWithin t.entries.length x = t.code x := fun x hx =>
    h.codeWithin_eq (Nat.lt_trans hx (lt_of_entry he)) (Nat.lt_trans hx (lt_of_entry he))
      (Nat.lt_succ_of_lt (Nat.lt_trans hx (lt_of_entry he)))
  have hmark : (if e.mutable then "M" else "").toList = if e.mutable then ['M'] else [] := by cases e.mutable <;> simp
  obtain ⟨htarget, hsignature⟩ := h.parts_lt he
  rw [code, codeWithin, entry_eq he]
  match hs : e.shape with
  | .alias target => simp only [hpart _ (htarget target hs), String.toList_append, hmark, shapeCode]
  | .primitive p => simp only [String.toList_append, hmark, shapeCode]
  | .function s =>
    obtain ⟨hret, hparams⟩ := List.forall_mem_cons.mp (hsignature s hs)
    have hparam : ∀ x ∈ s.params, ((if x.2 = .ref then "R" else "") ++ t.codeWithin t.entries.length x.1).toList = t.parameterCode x := by
      intro x hx
      rw [hpart x.1 (hparams x.1 (List.mem_map_of_mem hx)), parameterCode, String.toList_append]
      by_cases hmode : x.2 = .ref <;> simp [byReference, hmode]
    have hjoin : (String.join (s.params.map fun x => (if x.2 = .ref then "R" else "") ++ t.codeWithin t.entries.length x.1)).toList =
        s.params.flatMap t.parameterCode := by
      rw [String.toList_join, List.flatMap_map]
      exact List.flatMap_congr hparam
    simp only [hpart _ hret, String.toList_append, hmark, hjoin, shapeCode, List.append_assoc]
    simp

/-- The code of a mutable type is the code of the plain type of its name, with a mark. -/
theorem Reached.code_twins {m p : TypeId} (htwins : t.Twins m p) : (t.code m).toList = 'M' :: (t.code p).toList := by
  obtain ⟨e, e', he, he', -, hpairs⟩ := h.invariant.1.twins htwins
  obtain ⟨x, x', hx, hx', hm, hm', -⟩ := htwins
  cases hx.symm.trans he
  cases hx'.symm.trans he'
  have hshape : t.shapeCode e.shape = t.shapeCode e'.shape := by
    rcases hpairs.cases with ⟨hsame, -⟩ | ⟨m, p, hm, hp, htargets⟩
    · rw [hsame]
    · obtain ⟨-, y, -, hy, -, hplain, -⟩ := id htargets
      rw [hm, hp, shapeCode, shapeCode, h.invariant.1.unqualified_of_twins htargets, unqualified_of_plain hy hplain]
  rw [h.code_eq he, h.code_eq he', hm, hm', hshape]
  rfl

/-- An alias has the code of what it stands for. -/
theorem Reached.code_target {target : TypeId} (he : t.entries[id]? = some e) (hs : e.shape = .alias target) :
    (t.code target).toList = (t.code id).toList := by
  have hi := h.invariant.1
  obtain ⟨hlt, -, hplain⟩ := (hi.settled id e he).target target hs
  rw [h.code_eq he, hs, shapeCode]
  cases hm : e.mutable with
  | false =>
    obtain ⟨x, hx⟩ := exists_entry (Nat.lt_trans hlt (lt_of_entry he))
    have hxm := hplain hm
    rw [entry_eq hx] at hxm
    rw [unqualified_of_plain hx hxm]
    rfl
  | true =>
    obtain ⟨p, e', he', -, -, -, hpairs⟩ := (hi.settled id e he).plain hm
    rcases hpairs.cases with ⟨-, hno⟩ | ⟨m, p, hs', -, htargets⟩
    · exact absurd hs (hno target)
    · cases hs.symm.trans hs'
      rw [hi.unqualified_of_twins htargets, h.code_twins htargets]
      rfl

theorem Reached.code_resolveAlias (hid : t.Has id) : (t.code (t.resolveAlias id)).toList = (t.code id).toList := by
  refine h.invariant.1.ordered.induction (fun id e he hno => ?_) (fun id e target he hs ih => ?_) hid
  · rw [resolveAlias_other he hno]
  · rw [h.invariant.1.ordered.resolveAlias_alias he hs, ih, h.code_target he hs]

/-- The code of a type is the code of what is left of it when aliases are resolved. -/
theorem Reached.code_resolved (hid : t.Has id) : ∃ e, t.entries[t.resolveAlias id]? = some e ∧
    (∀ target, e.shape ≠ .alias target) ∧ (∀ s, e.shape = .function s → ∀ x ∈ s.types, x < id) ∧
    (t.code id).toList = (if e.mutable then ['M'] else []) ++ t.shapeCode e.shape := by
  obtain ⟨hle, hno⟩ := h.invariant.1.ordered.resolveAlias hid
  obtain ⟨e, he⟩ := exists_entry (Nat.lt_of_le_of_lt hle hid)
  rw [entry_eq he] at hno
  exact ⟨e, he, aliasOf?_eq_none.mp hno, fun s hs x hx => Nat.lt_of_lt_of_le ((h.parts_lt he).2 s hs x hx) hle,
    by rw [← h.code_resolveAlias hid, h.code_eq he]⟩

/-! ## Reading codes back -/

omit h in
theorem shapeCode_head (t : TypeTable) {shape : Shape} (hno : ∀ target, shape ≠ .alias target) :
    ∃ c cs, t.shapeCode shape = c :: cs ∧ startsCode c = true ∧ c ≠ 'M' := by
  match shape with
  | .alias target => exact absurd rfl (hno target)
  | .function s => exact ⟨'F', _, rfl, by decide, by decide⟩
  | .primitive p =>
    obtain ⟨c, cs, hcode, hc, hm, -⟩ := p.code_letters
    exact ⟨c, cs, hcode, hc, hm⟩

theorem Reached.code_head (hid : t.Has id) : ∃ c cs, (t.code id).toList = c :: cs ∧ startsCode c = true := by
  obtain ⟨e, -, hno, -, hcode⟩ := h.code_resolved hid
  obtain ⟨c, cs, hshape, hc, -⟩ := t.shapeCode_head hno
  rw [hcode, hshape]
  cases e.mutable with
  | false => exact ⟨c, cs, rfl, hc⟩
  | true => exact ⟨'M', c :: cs, rfl, by decide⟩

/-- The code of a type tells the structure of the type, whatever stands behind it. -/
def Reads (t : TypeTable) (a : TypeId) : Prop :=
  ∀ {b : TypeId} {r r' : List Char}, b < t.entries.length → Fresh r → Fresh r' → (t.code a).toList ++ r = (t.code b).toList ++ r' →
    t.SameStructure a b ∧ r = r'

theorem Reached.parameterCode_head {x : TypeId × PassMode} (hx : t.Has x.1) :
    ∃ c cs, t.parameterCode x = c :: cs ∧ c.isUpper = true ∧ c ≠ 'E' := by
  obtain ⟨c, cs, hcode, hc⟩ := h.code_head hx
  rw [parameterCode, hcode]
  cases byReference x with
  | false => exact ⟨c, cs, rfl, by simp_all [startsCode], by rintro rfl; simp [startsCode] at hc⟩
  | true => exact ⟨'R', c :: cs, rfl, by decide, by decide⟩

variable {l : List (TypeId × PassMode)}

/-- What is behind a code inside a function type: more parameters, or the end. -/
theorem Reached.fresh_parameters (hl : ∀ x ∈ l, t.Has x.1) : Fresh (l.flatMap t.parameterCode ++ 'E' :: r) := by
  cases l with
  | nil =>
    rintro c ⟨⟩
    decide
  | cons x l =>
    obtain ⟨c, cs, hcode, hc, -⟩ := h.parameterCode_head (hl x List.mem_cons_self)
    rw [List.flatMap_cons, hcode]
    rintro d ⟨⟩
    exact hc

/-- Parameters can be read back from the code of a function type. -/
theorem Reached.parameters_code_append {l' : List (TypeId × PassMode)} (hl : ∀ x ∈ l, t.Has x.1 ∧ t.Reads x.1)
    (hl' : ∀ x ∈ l', t.Has x.1) (heq : l.flatMap t.parameterCode ++ 'E' :: r = l'.flatMap t.parameterCode ++ 'E' :: r') :
    l.map byReference = l'.map byReference ∧ List.Forall₂ t.SameStructure (l.map (·.1)) (l'.map (·.1)) ∧ r = r' := by
  -- no parameter starts as the end of the parameters does
  have hend : ∀ {x : TypeId × PassMode} {rest r : List Char}, t.Has x.1 → 'E' :: r ≠ t.parameterCode x ++ rest := by
    intro x rest r hx heq
    obtain ⟨c, cs, hcode, -, hc⟩ := h.parameterCode_head hx
    rw [hcode] at heq
    exact hc (List.cons.inj heq).1.symm
  induction l generalizing l' with
  | nil =>
    cases l' with
    | nil => exact ⟨rfl, .nil, (List.cons.inj heq).2⟩
    | cons y l' => exact absurd (by simpa using heq) (hend (hl' y List.mem_cons_self))
  | cons x l ih =>
    cases l' with
    | nil => exact absurd (by simpa using heq.symm) (hend (hl x List.mem_cons_self).1)
    | cons y l' =>
      obtain ⟨⟨hx, hreads⟩, hmore⟩ := List.forall_mem_cons.mp hl
      obtain ⟨hy, hmore'⟩ := List.forall_mem_cons.mp hl'
      have hmark : ∀ {id : TypeId} {rest : List Char}, t.Has id → 'R' ∉ ((t.code id).toList ++ rest).head? := by
        intro id rest hid hc
        obtain ⟨c, cs, hcode, hstarts⟩ := h.code_head hid
        rw [hcode] at hc
        obtain rfl : c = 'R' := Option.some.inj hc
        exact absurd hstarts (by decide)
      simp only [List.flatMap_cons, parameterCode, List.append_assoc] at heq
      obtain ⟨hmode, heq⟩ := optional_append (hmark hx) (hmark hy) heq
      obtain ⟨hsame, heq⟩ := hreads hy (h.fresh_parameters fun z hz => (hmore z hz).1) (h.fresh_parameters hmore') heq
      obtain ⟨hmodes, htypes, hrest⟩ := ih hmore hmore' heq
      exact ⟨by rw [List.map_cons, List.map_cons, hmode, hmodes], .cons hsame htypes, hrest⟩

/-- No primitive is read as a function type, in which a capital comes right behind the first. -/
theorem Reached.code_ne_function {p : Primitive} (hs : ∀ x ∈ s.types, t.Has x) (hr : Fresh r) :
    p.code.toList ++ r ≠ t.shapeCode (.function s) ++ r' := by
  intro heq
  obtain ⟨c, cs, hret, hc⟩ := h.code_head (hs s.ret List.mem_cons_self)
  have hfresh : Fresh ((t.code s.ret).toList ++ (s.params.flatMap t.parameterCode ++ ['E'] ++ r')) := by
    rw [hret]
    rintro d ⟨⟩
    simp_all [startsCode]
  have hcode := (p.code_append (List.forall_mem_nil _) hr hfresh (by simpa [shapeCode] using heq)).1
  obtain ⟨d, ds, hp, -, -, hf, -⟩ := p.code_letters
  obtain ⟨rfl, rfl⟩ := List.cons.inj (hp.symm.trans hcode)
  exact hf rfl rfl

/-- Types can be read back from codes, however they are nested. -/
theorem Reached.reads (ha : t.Has a) : t.Reads a := by
  -- parts come before the whole, so the induction is on the position of the first type
  induction a using Nat.strongRecOn with
  | ind a ih =>
    intro b r r' hb hr hr' heq
    obtain ⟨e, he, hno, hparts, hcode⟩ := h.code_resolved ha
    obtain ⟨e', he', hno', hparts', hcode'⟩ := h.code_resolved hb
    have hmark : ∀ {shape : Shape} {rest : List Char}, (∀ target, shape ≠ .alias target) → 'M' ∉ (t.shapeCode shape ++ rest).head? := by
      intro shape rest hno hc
      obtain ⟨c, cs, hshape, -, hne⟩ := t.shapeCode_head hno
      rw [hshape] at hc
      exact hne (Option.some.inj hc)
    rw [hcode, hcode', List.append_assoc, List.append_assoc] at heq
    obtain ⟨hm, heq⟩ := optional_append (hmark hno) (hmark hno') heq
    have hin : ∀ {s : Signature}, e.shape = .function s → ∀ x ∈ s.types, t.Has x := fun hs x hx =>
      Nat.lt_trans (hparts _ hs x hx) ha
    have hin' : ∀ {s : Signature}, e'.shape = .function s → ∀ x ∈ s.types, t.Has x := fun hs x hx =>
      Nat.lt_trans (hparts' _ hs x hx) hb
    match hs : e.shape, hs' : e'.shape with
    | .alias target, _ => exact absurd hs (hno target)
    | _, .alias target => exact absurd hs' (hno' target)
    | .primitive p, .function s =>
      rw [hs, hs'] at heq
      exact absurd heq (h.code_ne_function (hin' hs') hr)
    | .function s, .primitive p =>
      rw [hs, hs'] at heq
      exact absurd heq.symm (h.code_ne_function (hin hs) hr')
    | .primitive p, .primitive p' =>
      obtain ⟨c, cs, hp', -, -, -, hcs⟩ := p'.code_letters
      rw [hs, hs', shapeCode, shapeCode, hp'] at heq
      obtain ⟨hp, hrest⟩ := p.code_append hcs hr hr' heq
      obtain rfl := Primitive.code_inj (String.toList_inj.mp (hp.trans hp'.symm))
      exact ⟨.primitive he he' hm hs hs', hrest⟩
    | .function s, .function s' =>
      obtain ⟨hret, hparams⟩ := List.forall_mem_cons.mp (hin hs)
      obtain ⟨hret', hparams'⟩ := List.forall_mem_cons.mp (hin' hs')
      have hlt : ∀ x ∈ s.params, t.Has x.1 := fun x hx => hparams x.1 (List.mem_map_of_mem hx)
      have hlt' : ∀ x ∈ s'.params, t.Has x.1 := fun x hx => hparams' x.1 (List.mem_map_of_mem hx)
      simp only [hs, hs', shapeCode, List.cons_append, List.append_assoc, List.cons.injEq, true_and, List.nil_append] at heq
      obtain ⟨hsame, heq⟩ := ih s.ret (hparts s hs _ List.mem_cons_self) hret hret' (h.fresh_parameters hlt) (h.fresh_parameters hlt') heq
      obtain ⟨hmodes, htypes, hrest⟩ := h.parameters_code_append
        (fun x hx => ⟨hlt x hx, ih x.1 (hparts s hs _ (List.mem_cons_of_mem _ (List.mem_map_of_mem hx))) (hlt x hx)⟩) hlt' heq
      exact ⟨.function he he' hm hs hs' hmodes (.cons hsame htypes), hrest⟩

omit h in
theorem parameters_code_congr {l' : List (TypeId × PassMode)} (hmodes : l.map byReference = l'.map byReference)
    (htypes : List.Forall₂ t.SameStructure (l.map (·.1)) (l'.map (·.1)))
    (hcode : ∀ x ∈ l, ∀ y ∈ l', t.SameStructure x.1 y.1 → (t.code x.1).toList = (t.code y.1).toList) :
    l.flatMap t.parameterCode = l'.flatMap t.parameterCode := by
  induction l generalizing l' with
  | nil => rw [List.map_eq_nil_iff.mp (List.forall₂_nil_left_iff.mp htypes)]
  | cons x l ih =>
    cases l' with
    | nil => cases hmodes
    | cons y l' =>
      obtain ⟨hmode, hmodes⟩ := List.cons.inj hmodes
      obtain ⟨hsame, htypes⟩ := List.forall₂_cons.mp htypes
      rw [List.flatMap_cons, List.flatMap_cons, ih hmodes htypes fun x hx y hy => hcode x (.tail _ hx) y (.tail _ hy), parameterCode,
        parameterCode, hmode, hcode x (.head _) y (.head _) hsame]

/-- Types of the same structure have the same code. -/
theorem Reached.code_congr (ha : t.Has a) (hb : t.Has b) (hsame : t.SameStructure a b) : (t.code a).toList = (t.code b).toList := by
  induction a using Nat.strongRecOn generalizing b with
  | ind a ih =>
    obtain ⟨e, he, -, hparts, hcode⟩ := h.code_resolved ha
    obtain ⟨e', he', -, hparts', hcode'⟩ := h.code_resolved hb
    rw [hcode, hcode']
    cases hsame with
    | primitive hx hx' hm hs hs' =>
      cases he.symm.trans hx
      cases he'.symm.trans hx'
      rw [hm, hs, hs']
    | function hx hx' hm hs hs' hmodes htypes =>
      rename_i s s'
      cases he.symm.trans hx
      cases he'.symm.trans hx'
      have hcodes : ∀ x ∈ s.types, ∀ y ∈ s'.types, t.SameStructure x y → (t.code x).toList = (t.code y).toList := fun x hx y hy =>
        ih x (hparts s hs x hx) (Nat.lt_trans (hparts s hs x hx) ha) (Nat.lt_trans (hparts' s' hs' y hy) hb)
      obtain ⟨hret, hparams⟩ := List.forall₂_cons.mp htypes
      rw [hm, hs, hs', shapeCode, shapeCode, hcodes s.ret (.head _) s'.ret (.head _) hret, parameters_code_congr hmodes hparams
        fun x hx y hy => hcodes x.1 (.tail _ (List.mem_map_of_mem hx)) y.1 (.tail _ (List.mem_map_of_mem hy))]

end

/-! ## Symbols -/

/-- The size of a name can be read back from a symbol, because no name starts with a digit; and so can the name. -/
theorem name_append {name name' rest rest' : String} (hn : IsIdentifier name) (hn' : IsIdentifier name')
    (h : toString name.utf8ByteSize ++ (name ++ rest) = toString name'.utf8ByteSize ++ (name' ++ rest')) : name = name' ∧ rest = rest' := by
  have hdigits : ∀ n : Nat, ∀ c ∈ (toString n).toList, c.isDigit = true := by
    intro n c hc
    rw [Nat.toString_eq_repr, Nat.toList_repr] at hc
    exact Nat.isDigit_of_mem_toDigits (by decide) (by decide) hc
  have hhead : ∀ {name rest : String}, IsIdentifier name → ∀ c ∈ (name ++ rest).toList.head?, c.isDigit = false := by
    rintro name rest ⟨⟨d, ds, hname, hstarts, -⟩, -⟩ c hc
    rw [String.toList_append, hname] at hc
    obtain rfl : d = c := Option.some.inj hc
    by_contra hdigit
    rw [Scan.startsWord_of_isDigit (Bool.not_eq_false _ ▸ hdigit)] at hstarts
    cases hstarts
  have hlists : (toString name.utf8ByteSize).toList ++ (name ++ rest).toList = (toString name'.utf8ByteSize).toList ++ (name' ++ rest').toList := by
    rw [← String.toList_append, h, String.toList_append]
  obtain ⟨hsize, htail⟩ := run_append (hdigits _) (hdigits _) (hhead hn) (hhead hn') hlists
  rw [Nat.toString_eq_repr, Nat.toString_eq_repr, Nat.toList_repr, Nat.toList_repr] at hsize
  have hnat := congrArg (Nat.ofDigitChars 10 · 0) hsize
  simp only [Nat.ofDigitChars_ten_toDigits] at hnat
  have hbytes := congrArg String.toByteArray (String.toList_inj.mp htail)
  rw [String.toByteArray_append, String.toByteArray_append] at hbytes
  obtain rfl := String.toByteArray_inj.mp (ByteArray.append_inj_left hbytes hnat)
  rw [String.toList_append, String.toList_append] at htail
  exact ⟨rfl, String.toList_inj.mp (List.append_cancel_left htail)⟩

/-- Two types have the same code exactly if they become the same once aliases are resolved everywhere and the modes `copy` and `view` are one; and
functions have the same symbol exactly if they have the same name and types of the same code. -/
theorem Reached.symbols_apart (h : t.Reached) (ha : a < t.entries.length) (hb : b < t.entries.length) :
    (t.code a = t.code b ↔ t.SameStructure a b) ∧ ∀ name name' : String, IsIdentifier name → IsIdentifier name' →
      (t.symbolOf name a = t.symbolOf name' b ↔ name = name' ∧ t.code a = t.code b) := by
  refine ⟨⟨fun heq => ?_, fun hsame => String.toList_inj.mp (h.code_congr ha hb hsame)⟩, fun name name' hn hn' => ⟨fun heq => ?_, ?_⟩⟩
  · exact (h.reads ha hb fresh_nil fresh_nil (by rw [heq])).1
  · simp only [symbolOf, String.append_assoc] at heq
    exact name_append hn hn' (String.append_right_inj _ |>.mp heq)
  · rintro ⟨rfl, hcode⟩
    rw [symbolOf, symbolOf, hcode]

/-- The mutable form of a name for a function type has the code of the mutable function type, and functions of different names have different
symbols. -/
theorem Reached.symbols_apart_operation :
    operationTable.Reached ∧ operationTable.SameStructure 35 34 ∧ ¬operationTable.SameStructure 35 32 ∧
      operationTable.symbolOf "f" 32 ≠ operationTable.symbolOf "f1" 32 := by
  have hword : ∀ {c : Char} {cs : List Char}, Text.startsWord c = true → (∀ d ∈ cs, Text.continuesWord d = true) →
      Keyword.ofWord? (String.ofList (c :: cs)) = none → IsIdentifier (String.ofList (c :: cs)) := fun hc hcs hk =>
    ⟨⟨_, _, String.toList_ofList, hc, hcs⟩, hk⟩
  have hname : IsIdentifier (String.ofList ['f']) := hword (by decide +kernel) nofun (by decide +kernel)
  have hname' : IsIdentifier (String.ofList ['f', '1']) := hword (by decide +kernel) (List.all_eq_true.mp (by decide +kernel)) (by decide +kernel)
  have h := @Reached.symbols_apart operationTable
  refine ⟨reached_operationTable, (h reached_operationTable (by decide +kernel) (by decide +kernel)).1.mp (by decide +kernel), ?_, ?_⟩
  · exact fun hsame => absurd ((h reached_operationTable (by decide +kernel) (by decide +kernel)).1.mpr hsame) (by decide +kernel)
  · exact fun heq => absurd (((h reached_operationTable (by decide +kernel) (by decide +kernel)).2 _ _ hname hname').mp heq).1 (by decide +kernel)

end TypeTable

end Ember
