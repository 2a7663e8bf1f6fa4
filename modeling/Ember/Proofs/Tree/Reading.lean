import Ember.Proofs.Tree.Printing

/-!
# Reading rows

What parsers make of rows of tokens. `Goes p row follow Q q` says that a parser `p` reads a row of kinds,
whatever comes behind a token of which `follow` holds, and then goes on as `q` does; a parser that is done goes on as `pure` does
(`Reads`). An operand of operators is read in the first way, because the loop that takes the operators behind it runs on.
-/

namespace Ember

namespace Parser

variable {α β γ : Type} {row row' : List Kind} {follow follow' : Kind → Prop}

/-! ## Reading rows -/

/-- The parser reads a row of tokens of the given kinds and goes on as another parser. -/
def Goes (p : Parser Forest α) (row : List Kind) (follow : Kind → Prop) (Q : β → Prop) (q : β → Parser Forest α) : Prop :=
  ∀ ts : List Token, ts.map (·.kind) = row → ∀ u rest, follow u.kind → ∃ b, Q b ∧ p ⟨ts ++ u :: rest, ()⟩ = q b ⟨u :: rest, ()⟩

/-- The parser reads a row of tokens of the given kinds, and is done. -/
def Reads (p : Parser Forest α) (row : List Kind) (follow : Kind → Prop) (Q : α → Prop) : Prop :=
  Goes p row follow Q pure

variable {p : Parser Forest α} {q next : β → Parser Forest α} {Q : β → Prop} {Q' : γ → Prop}

section

variable (h : Goes p row follow Q q)
include h

theorem Goes.trans {q' : γ → Parser Forest α} (hq : ∀ b, Q b → Goes (q b) row' follow' Q' q')
    (hfollow : ∀ k, follow' k → follow (row'.headD k)) : Goes p (row ++ row') follow' Q' q' := by
  intro ts hts u rest hu
  obtain ⟨ts₁, ts₂, rfl, hts₁, hts₂⟩ := List.map_eq_append_iff.mp hts
  obtain ⟨v, rest', hv, hkind⟩ : ∃ v rest', ts₂ ++ u :: rest = v :: rest' ∧ v.kind = row'.headD u.kind := by
    cases ts₂ with
    | nil => exact ⟨u, rest, rfl, by rw [← hts₂]; rfl⟩
    | cons v ts₂ => exact ⟨v, ts₂ ++ u :: rest, rfl, by rw [← hts₂]; rfl⟩
  obtain ⟨b, hb, hp⟩ := h ts₁ hts₁ v rest' (hkind ▸ hfollow u.kind hu)
  obtain ⟨c, hc, hq⟩ := hq b hb ts₂ hts₂ u rest hu
  refine ⟨c, hc, ?_⟩
  rw [List.append_assoc, hv, hp, ← hv, hq]

theorem Goes.mono {Q' : β → Prop} (hQ : ∀ b, Q b → Q' b) (hfollow : ∀ k, follow' k → follow k) : Goes p row follow' Q' q := by
  intro ts hts u rest hu
  obtain ⟨b, hb, hp⟩ := h ts hts u rest (hfollow _ hu)
  exact ⟨b, hQ b hb, hp⟩

theorem Goes.weaken (hfollow : ∀ k, follow' k → follow k) : Goes p row follow' Q q :=
  h.mono (fun _ hb => hb) hfollow

theorem Goes.last {q' : γ → Parser Forest α} (hq : ∀ b, Q b → Goes (q b) [] follow' Q' q') (hfollow : ∀ k, follow' k → follow k) :
    Goes p row follow' Q' q' := by
  have hgoes := h.trans hq hfollow
  rwa [List.append_nil] at hgoes

end

section

variable {p : Parser Forest β} {q : γ → Parser Forest α}

/-- When its first part is read, a sequence goes on with the rest of it. -/
theorem Reads.bind (h : Reads p row follow Q) : Goes (p >>= next) row follow Q next := by
  intro ts hts u rest hu
  obtain ⟨b, hb, hp⟩ := h ts hts u rest hu
  refine ⟨b, hb, ?_⟩
  show (p ⟨ts ++ u :: rest, ()⟩).bind (fun (b, r) => next b r) = _
  rw [hp]
  rfl

theorem Reads.then (h : Reads p row follow Q)
    (hnext : ∀ b, Q b → Goes (next b) row' follow' Q' q) (hfollow : ∀ k, follow' k → follow (row'.headD k)) :
    Goes (p >>= next) (row ++ row') follow' Q' q :=
  h.bind.trans hnext hfollow

/-- What only looks at the next token leaves the whole row. -/
theorem Reads.peek (h : Reads p [] follow Q)
    (hnext : ∀ b, Q b → Goes (next b) row follow' Q' q) (hfollow : ∀ k, follow' k → follow (row.headD k)) :
    Goes (p >>= next) row follow' Q' q :=
  h.then hnext hfollow

/-- What ends its own row may be followed by anything. -/
theorem Reads.step (h : Reads p row (fun _ => True) Q)
    (hnext : ∀ b, Q b → Goes (next b) row' follow' Q' q) : Goes (p >>= next) (row ++ row') follow' Q' q :=
  h.then hnext fun _ _ => trivial

/-- The last part of a sequence that reads anything. -/
theorem Reads.last (h : Reads p row follow Q) (hnext : ∀ b, Q b → Goes (next b) [] follow' Q' q) (hfollow : ∀ k, follow' k → follow k) :
    Goes (p >>= next) row follow' Q' q :=
  h.bind.last hnext hfollow

/-- The last part of a sequence, where it ends its own row. -/
theorem Reads.ends (h : Reads p row (fun _ => True) Q)
    (hnext : ∀ b, Q b → Goes (next b) [] follow' Q' q) : Goes (p >>= next) row follow' Q' q :=
  h.last hnext fun _ _ => trivial

end

/-- What reads no token at all. -/
theorem reads_nil {Q : α → Prop} (h : ∀ u rest, follow u.kind → ∃ a, Q a ∧ p ⟨u :: rest, ()⟩ = .ok (a, ⟨u :: rest, ()⟩)) :
    Reads p [] follow Q := by
  intro ts hts u rest hu
  obtain rfl := List.map_eq_nil_iff.mp hts
  exact h u rest hu

theorem reads_pure {a : α} {Q : α → Prop} (h : Q a) : Reads (pure a) [] follow Q :=
  reads_nil fun _ _ _ => ⟨a, h, rfl⟩

theorem reads_map {g : α → β} {Q : α → Prop} {Q' : β → Prop} (h : Reads p row follow Q) (hg : ∀ a, Q a → Q' (g a)) :
    Reads (g <$> p) row follow Q' :=
  h.last (fun a ha => reads_pure (hg a ha)) fun _ hk => hk

/-! ### Tokens -/

theorem reads_current (P : Kind → Prop) : Reads current [] P fun t => P t.kind :=
  reads_nil fun u _ hu => ⟨u, hu, rfl⟩

theorem reads_here : Reads here [] (fun _ => True) fun _ => True :=
  reads_nil fun u _ _ => ⟨u.loc, trivial, rfl⟩

theorem reads_advance (k : Kind) : Reads advance [k] (fun _ => True) fun t => t.kind = k := by
  intro ts hts u rest _
  obtain ⟨t, rfl, rfl⟩ := List.map_eq_singleton_iff.mp hts
  exact ⟨t, rfl, rfl⟩

theorem reads_at_true (k : Kind) : Reads (at? k) [] (· = k) (· = true) :=
  (reads_current (· = k)).peek (fun t ht => reads_pure (by simp [ht])) fun _ hk => hk

theorem reads_at_false (k : Kind) : Reads (at? k) [] (· ≠ k) (· = false) :=
  (reads_current (· ≠ k)).peek (fun t ht => reads_pure (by simpa using ht)) fun _ hk => hk

section

variable {k : Kind} {q : γ → Parser Forest α}

theorem goes_current {next : Token → Parser Forest α} (h : ∀ t, t.kind = k → Goes (next t) (k :: row) follow Q' q) :
    Goes (current >>= next) (k :: row) follow Q' q :=
  (reads_current (· = k)).peek h fun _ _ => rfl

theorem goes_here {next : Loc → Parser Forest α} (h : ∀ loc, Goes (next loc) row follow Q' q) : Goes (here >>= next) row follow Q' q :=
  reads_here.peek (fun loc _ => h loc) fun _ _ => trivial

theorem goes_advance {next : Token → Parser Forest α} (h : ∀ t, t.kind = k → Goes (next t) row follow Q' q) :
    Goes (advance >>= next) (k :: row) follow Q' q :=
  (reads_advance k).step h

theorem goes_at_true {next : Bool → Parser Forest α} (hk : ∀ u, follow u → row.headD u = k) (h : Goes (next true) row follow Q' q) :
    Goes (at? k >>= next) row follow Q' q :=
  (reads_at_true k).peek (fun _ hb => hb ▸ h) hk

theorem goes_at_false {next : Bool → Parser Forest α} (hk : ∀ u, follow u → row.headD u ≠ k) (h : Goes (next false) row follow Q' q) :
    Goes (at? k >>= next) row follow Q' q :=
  (reads_at_false k).peek (fun _ hb => hb ▸ h) hk

theorem reads_expect (k : Kind) : Reads (expect k) [k] (fun _ => True) fun t => t.kind = k := by
  refine goes_at_true (fun _ _ => rfl) ?_
  exact reads_advance k

theorem goes_expect {next : Token → Parser Forest α} (h : ∀ t, Goes (next t) row follow Q' q) :
    Goes (expect k >>= next) (k :: row) follow Q' q :=
  (reads_expect k).step fun t _ => h t

theorem reads_consume_true (k : Kind) : Reads (consume k) [k] (fun _ => True) (· = true) := by
  refine goes_at_true (fun _ _ => rfl) ?_
  exact goes_advance fun _ _ => reads_pure rfl

theorem reads_consume_false (k : Kind) : Reads (consume k) [] (· ≠ k) (· = false) := by
  refine goes_at_false (fun _ hk => hk) ?_
  exact reads_pure rfl

theorem goes_consume_true {next : Bool → Parser Forest α} (h : Goes (next true) row follow Q' q) :
    Goes (consume k >>= next) (k :: row) follow Q' q :=
  (reads_consume_true k).step fun _ hb => hb ▸ h

theorem goes_consume_false {next : Bool → Parser Forest α} (hk : ∀ u, follow u → row.headD u ≠ k)
    (h : Goes (next false) row follow Q' q) : Goes (consume k >>= next) row follow Q' q :=
  (reads_consume_false k).peek (fun _ hb => hb ▸ h) hk

end

theorem reads_identifier (expected : Expectation) (name : String) :
    Reads (identifier expected) [.ident name] (fun _ => True) (· = name) := by
  refine goes_current fun t ht => ?_
  simp only [ht]
  exact goes_advance fun _ _ => reads_pure rfl

theorem reads_typeRef (type : TypeRef) : Reads typeRef (Kind.ofType type) (fun _ => True) fun t => t.bare = type.bare := by
  refine goes_here fun loc => ?_
  unfold Kind.ofType
  have hname : ∀ mutable, mutable = type.mutable →
      Reads (do let name ← identifier .type; return { name, mutable, loc } : Parser Forest TypeRef) [.ident type.name] (fun _ => True) fun t => t.bare = type.bare := by
    intro mutable hm
    refine (reads_identifier _ type.name).last (fun name hn => reads_pure ?_) fun _ hk => hk
    rw [hm, hn]
    rfl
  cases hm : type.mutable with
  | false => exact (reads_consume_false _).peek (fun b hb => hname b (hb.trans hm.symm)) fun _ _ => by simp
  | true => exact (reads_consume_true _).then (fun b hb => hname b (hb.trans hm.symm)) fun _ _ => trivial

/-- A type behind a colon, or none if no colon follows. -/
theorem reads_annotated (type : Option TypeRef) :
    Reads typeAnnotation? (Kind.ofAnnotation type) (· ≠ .mark .colon) fun t => t.map TypeRef.bare = type.map TypeRef.bare := by
  unfold typeAnnotation?
  cases type with
  | none =>
    refine goes_consume_false (fun _ hk => hk) ?_
    exact reads_pure rfl
  | some type =>
    refine goes_consume_true ?_
    exact (reads_typeRef type).ends fun t ht => reads_pure (congrArg some ht)

/-! ### Nodes -/

theorem reads_make {loc : Loc} {form : Form Node} {Q : Node → Prop} (h : Q ⟨loc, form⟩) : Reads (make loc form) [] follow Q :=
  reads_nil fun _ _ _ => ⟨⟨loc, form⟩, h, rfl⟩

end Parser

end Ember
