import Ember.Proofs.Tree.Reading

/-!
# Expressions come back

The row of an expression is read to the expression that it was printed from, at every level that it has the power for
(`RowComesBack`), and with its parentheses at every level at all (`ComesBack`).
-/

namespace Ember

/-! ## Kinds -/

namespace Kind

/-- How strongly a token between operands binds. -/
def power? : Kind → Option Nat
  | .mark m => m.binary?.map (·.1)
  | .keyword .asKw => some castPower
  | _ => none

/-- Whether a token starts a call, a member or a subscript. -/
def isSuffix : Kind → Bool
  | .mark .lParen | .mark .dot | .mark .lBracket => true
  | _ => false

/-- Whether an operand may start with a token. -/
def opensOperand : Kind → Bool
  | .mark m => m == .lParen
  | .keyword k => k == .trueKw || k == .falseKw || k == .noneKw
  | .integer n => n < 0x8000000000000000
  | .ident _ | .floating _ | .string _ | .cstring _ | .character _ | .byte _ => true
  | _ => false

/-- Whether an expression may start with a token. -/
def opens : Kind → Bool
  | .mark m => m == .lParen || m.unary?.isSome
  | k => k.opensOperand

theorem opens_of_opensOperand {k : Kind} (h : k.opensOperand = true) : k.opens = true := by
  cases k with
  | mark m =>
    have h : (m == .lParen) = true := h
    simp [opens, h]
  | _ => exact h

/-- The token may stand behind what holds together with a power, and is not taken for a part of it. -/
structure Follows (power : Nat) (k : Kind) : Prop where
  apart : k.isSuffix = false
  loose : ∀ q, k.power? = some q → q ≤ power

/-- The token ends an expression whose operators bind at least as strongly as `least`. -/
structure Stops (least : Nat) (k : Kind) : Prop where
  apart : k.isSuffix = false
  loose : ∀ q, k.power? = some q → q < least

end Kind

/-! ## Trees -/

namespace Node

theorem like_mk {loc loc' : Loc} {form form' : Form Node} (h : (form.map bare).bare = (form'.map bare).bare) :
    Like ⟨loc, form⟩ ⟨loc', form'⟩ := by
  rw [Like, bare_mk, bare_mk, h]

/-- A name that stands for its variable, as it is read at first. -/
def asValue : Node → Node
  | ⟨loc, .identifier name⟩ => ⟨loc, .variable name⟩
  | n => n

theorem asValue_of_plain {n : Node} (h : n.isIdentifier = false) : n.asValue = n := by
  obtain ⟨loc, form⟩ := n
  cases form with
  | identifier => cases h
  | _ => rfl

theorem isNumber_of_like {n m : Node} (h : n.Like m) : n.isNumber = m.isNumber := by
  have hbare : ∀ n : Node, n.bare.isNumber = n.isNumber := by
    rintro ⟨loc, form⟩
    rw [bare_mk]
    cases form <;> rfl
  rw [← hbare n, h, hbare m]

end Node

namespace Parser

variable {row : List Kind} {follow : Kind → Prop} {Q : Node → Prop}

/-! ## Loops that end -/

theorem reads_operators_nil (fuel least : Nat) (n : Node) : Reads (operators (fuel + 1) least n) [] (Kind.Stops least) (· = n) := by
  refine (reads_current (Kind.Stops least)).peek (fun t ht => ?_) fun _ hk => hk
  split
  · rename_i hk
    rw [if_pos (ht.loose castPower (by rw [hk]; rfl))]
    exact reads_pure rfl
  · rename_i m hk
    split
    · exact reads_pure rfl
    · rename_i power op hop
      rw [if_pos (ht.loose power (by rw [hk, Kind.power?, hop]; rfl))]
      exact reads_pure rfl
  · exact reads_pure rfl

theorem reads_suffixes_nil (fuel : Nat) (n : Node) : Reads (suffixes (fuel + 1) n) [] (·.isSuffix = false) (· = n) := by
  have hne : ∀ {m : Mark}, Kind.isSuffix (.mark m) = true → ∀ k : Kind, k.isSuffix = false → k ≠ .mark m := by
    rintro m hm k hk rfl
    rw [hm] at hk
    cases hk
  refine goes_here fun loc => ?_
  refine goes_consume_false (hne rfl) ?_
  refine goes_consume_false (hne rfl) ?_
  refine goes_consume_false (hne rfl) ?_
  exact reads_pure rfl

/-! ## Levels of expressions

A row can be read as an operand with what stands behind it, as an operand with what stands before it, or as an expression; with each
of them comes the fuel that it takes. The fuel that is left for the loop at the end is at least what is asked for.
-/

/-- The row is an operand, perhaps with calls, members and subscripts behind it. -/
def ReadsSuffixed (row : List Kind) (Q : Node → Prop) : Prop :=
  ∀ need fuel, 8 * row.length + need ≤ fuel + 3 → ∃ fuel', need ≤ fuel' ∧ Goes (suffixed fuel) row (fun _ => True) Q (suffixes fuel')

/-- The row is an operand, perhaps with operators before it. -/
def ReadsUnary (row : List Kind) (Q : Node → Prop) : Prop :=
  ∀ fuel, 8 * row.length ≤ fuel + 1 → Reads (unary fuel) row (·.isSuffix = false) Q

/-- The row is an expression whose operators bind at least as strongly as `least`. -/
def ReadsExpr (least : Nat) (row : List Kind) (follow : Kind → Prop) (Q : Node → Prop) : Prop :=
  ∀ need fuel, 8 * row.length + need ≤ fuel → ∃ fuel', need ≤ fuel' ∧ Goes (expr fuel least) row follow Q (operators fuel' least)

theorem ReadsSuffixed.unary (h : ReadsSuffixed row Q) (hhead : ∃ k ks, row = k :: ks ∧ k.opensOperand = true) : ReadsUnary row Q := by
  obtain ⟨k, ks, rfl, hk⟩ := hhead
  intro fuel hfuel
  rw [List.length_cons] at hfuel
  obtain _ | fuel := fuel
  · omega
  have hsuffixed : Reads (suffixed fuel) (k :: ks) (·.isSuffix = false) Q := by
    obtain ⟨fuel', hneed, hgoes⟩ := h 1 fuel (by rw [List.length_cons]; omega)
    obtain _ | fuel' := fuel'
    · omega
    exact hgoes.last (fun n hn => (reads_suffixes_nil fuel' n).mono (fun _ hm => hm ▸ hn) fun _ hk => hk) fun _ _ => trivial
  refine (reads_current (·.opensOperand = true)).peek (fun t ht => ?_) fun _ _ => hk
  split
  · rename_i m hm
    rw [hm] at ht
    obtain rfl : m = .lParen := by simpa [Kind.opensOperand] using ht
    exact hsuffixed
  · exact hsuffixed

theorem ReadsUnary.expr (h : ReadsUnary row Q) (hne : row ≠ []) (least : Nat) : ReadsExpr least row (·.isSuffix = false) Q := by
  intro need fuel hfuel
  have hpos := List.length_pos_iff.mpr hne
  obtain _ | fuel := fuel
  · omega
  exact ⟨fuel, by omega, (h fuel (by omega)).bind⟩

theorem ReadsExpr.weaken {least : Nat} {follow' : Kind → Prop} (h : ReadsExpr least row follow Q) (hfollow : ∀ k, follow' k → follow k) :
    ReadsExpr least row follow' Q := by
  intro need fuel hfuel
  obtain ⟨fuel', hneed, hgoes⟩ := h need fuel hfuel
  exact ⟨fuel', hneed, hgoes.weaken hfollow⟩

/-- The row is a whole expression where no operator that belongs to it follows. -/
theorem ReadsExpr.reads {least fuel : Nat} (h : ReadsExpr least row follow Q) (hfollow : ∀ k, Kind.Stops least k → follow k)
    (hfuel : 8 * row.length + 1 ≤ fuel) : Reads (Parser.expr fuel least) row (Kind.Stops least) Q := by
  obtain ⟨fuel', hneed, hgoes⟩ := h 1 fuel hfuel
  obtain _ | fuel' := fuel'
  · omega
  exact hgoes.last (fun n hn => (reads_operators_nil fuel' least n).mono (fun _ hm => hm ▸ hn) fun _ hk => hk) hfollow

/-- An expression in parentheses is an operand. -/
theorem ReadsExpr.parens (h : ReadsExpr 0 row follow Q) (hfollow : ∀ k, Kind.Stops 0 k → follow k) :
    ReadsSuffixed (.mark .lParen :: (row ++ [.mark .rParen])) Q := by
  intro need fuel hfuel
  simp only [List.length_cons, List.length_append, List.length_nil] at hfuel
  obtain ⟨fuel, rfl⟩ : ∃ f, fuel = f + 2 := ⟨fuel - 2, by omega⟩
  refine ⟨fuel + 1, by omega, Reads.bind ?_⟩
  refine goes_current fun t ht => ?_
  simp only [ht]
  refine goes_advance fun _ _ => ?_
  refine (h.reads hfollow (by omega)).then (fun n hn => ?_) fun _ _ => ⟨rfl, fun _ hq => by cases hq⟩
  exact goes_expect fun _ => reads_pure hn

end Parser

namespace Node

open Ember.Parser

/-- What may stand behind the row of a tree. The right side of an assignment takes all operators behind it. -/
def Follow (n : Node) (k : Kind) : Prop :=
  if n.form.power ≤ assignmentPower then Kind.Stops assignmentPower k else Kind.Follows n.form.power k

/-- The row of a tree without parentheses is read at all levels that it has the power for. -/
structure RowComesBack (n : Node) : Prop where
  head : ∃ k ks, n.row = k :: ks ∧ k.opens = true ∧ (suffixPower ≤ n.form.power → k.opensOperand = true)
  plain : ∀ k ∈ n.row, k ≠ .keyword .inKw
  expr : ∀ least, least ≤ n.form.power → ReadsExpr least n.row n.Follow (Like · n.asValue)
  unary : prefixPower ≤ n.form.power → ReadsUnary n.row (Like · n.asValue)
  suffixed : suffixPower ≤ n.form.power → ReadsSuffixed n.row (Like · n.asValue)

/-- The row of a tree comes back as the tree, whatever its place asks for. -/
structure ComesBack (n : Node) : Prop where
  head : ∀ least, ∃ k ks, n.print least = k :: ks ∧ k.opens = true
  headSuffixed : ∃ k ks, n.print suffixPower = k :: ks ∧ k.opensOperand = true
  plain : ∀ least, ∀ k ∈ n.print least, k ≠ .keyword .inKw
  suffixed : ReadsSuffixed (n.print suffixPower) (Like · n.asValue)
  unary : ReadsUnary (n.print prefixPower) (Like · n.asValue)
  operand : ∀ power least, least ≤ power → assignmentPower < power →
    ReadsExpr least (n.print power) (Kind.Follows power) (Like · n.asValue)
  expr : ∀ least fuel, 8 * (n.print least).length + 1 ≤ fuel →
    Reads (Parser.expr fuel least) (n.print least) (Kind.Stops least) (Like · n.asValue)

variable {n : Node}

theorem RowComesBack.follow_of_stops {least : Nat} (hle : least ≤ n.form.power) {k : Kind} (hk : Kind.Stops least k) : n.Follow k := by
  unfold Follow
  split
  · exact ⟨hk.apart, fun q hq => Nat.lt_of_lt_of_le (hk.loose q hq) (Nat.le_trans hle ‹_›)⟩
  · exact ⟨hk.apart, fun q hq => Nat.le_of_lt (Nat.lt_of_lt_of_le (hk.loose q hq) hle)⟩

theorem RowComesBack.comesBack (h : n.RowComesBack) : n.ComesBack := by
  obtain ⟨k, ks, hrow, hopens, hoperand⟩ := h.head
  have hparens : ReadsSuffixed (.mark .lParen :: (n.row ++ [.mark .rParen])) (Like · n.asValue) :=
    (h.expr 0 (Nat.zero_le _)).parens fun _ hk => RowComesBack.follow_of_stops (Nat.zero_le _) hk
  have hunary : ReadsUnary (.mark .lParen :: (n.row ++ [.mark .rParen])) (Like · n.asValue) := hparens.unary ⟨_, _, rfl, rfl⟩
  refine ⟨fun least => ?_, ?_, fun least k' hk' => ?_, ?_, ?_, fun power least hle hpower => ?_, fun least fuel hfuel => ?_⟩
  · rw [print_eq]
    split
    · exact ⟨_, _, rfl, rfl⟩
    · exact ⟨k, ks, hrow, hopens⟩
  · rw [print_eq]
    split
    · exact ⟨_, _, rfl, rfl⟩
    · rename_i hlt
      exact ⟨k, ks, hrow, hoperand (Nat.not_lt.mp hlt)⟩
  · rw [print_eq] at hk'
    split at hk'
    · rcases List.mem_cons.mp hk' with rfl | hk'
      · simp
      · rcases List.mem_append.mp hk' with hk' | hk'
        · exact h.plain k' hk'
        · rw [List.mem_singleton.mp hk']
          simp
    · exact h.plain k' hk'
  · rw [print_eq]
    split
    · exact hparens
    · exact h.suffixed (Nat.not_lt.mp ‹_›)
  · rw [print_eq]
    split
    · exact hunary
    · exact h.unary (Nat.not_lt.mp ‹_›)
  · rw [print_eq]
    split
    · exact (hunary.expr (List.cons_ne_nil _ _) least).weaken fun _ hk => hk.apart
    · rename_i hlt
      refine (h.expr least (Nat.le_trans hle (Nat.not_lt.mp hlt))).weaken fun _ hk => ?_
      rw [Follow, if_neg (by omega)]
      exact ⟨hk.apart, fun q hq => Nat.le_trans (hk.loose q hq) (Nat.not_lt.mp hlt)⟩
  · rw [print_eq] at hfuel ⊢
    split
    · rw [if_pos ‹_›] at hfuel
      exact (hunary.expr (List.cons_ne_nil _ _) least).reads (fun _ hk => hk.apart) hfuel
    · rename_i hlt
      rw [if_neg hlt] at hfuel
      exact (h.expr least (Nat.not_lt.mp hlt)).reads (fun _ hk => RowComesBack.follow_of_stops (Nat.not_lt.mp hlt) hk) hfuel

theorem Follow.apart {k : Kind} (h : n.Follow k) : k.isSuffix = false := by
  unfold Follow at h
  split at h
  · exact h.apart
  · exact h.apart

theorem rowComesBack_of_suffixed (hhead : ∃ k ks, n.row = k :: ks ∧ k.opensOperand = true)
    (hplain : ∀ k ∈ n.row, k ≠ .keyword .inKw) (h : ReadsSuffixed n.row (Like · n.asValue)) : n.RowComesBack := by
  obtain ⟨k, ks, hrow, hk⟩ := hhead
  have hunary := h.unary ⟨k, ks, hrow, hk⟩
  exact ⟨⟨k, ks, hrow, Kind.opens_of_opensOperand hk, fun _ => hk⟩, hplain,
    fun least _ => (hunary.expr (by simp [hrow]) least).weaken fun _ hk => Follow.apart hk, fun _ => hunary, fun _ => h⟩

theorem rowComesBack_of_unary (hpower : n.form.power = prefixPower) (hhead : ∃ k ks, n.row = k :: ks ∧ k.opens = true)
    (hplain : ∀ k ∈ n.row, k ≠ .keyword .inKw) (h : ReadsUnary n.row (Like · n.asValue)) : n.RowComesBack := by
  obtain ⟨k, ks, hrow, hk⟩ := hhead
  have hnot : ¬ suffixPower ≤ n.form.power := by rw [hpower]; decide
  exact ⟨⟨k, ks, hrow, hk, fun hle => absurd hle hnot⟩, hplain,
    fun least _ => (h.expr (by simp [hrow]) least).weaken fun _ hk => Follow.apart hk, fun _ => h, fun hle => absurd hle hnot⟩

theorem rowComesBack_of_expr (hpower : n.form.power ≤ castPower) (hhead : ∃ k ks, n.row = k :: ks ∧ k.opens = true)
    (hplain : ∀ k ∈ n.row, k ≠ .keyword .inKw)
    (h : ∀ least, least ≤ n.form.power → ReadsExpr least n.row n.Follow (Like · n.asValue)) : n.RowComesBack := by
  obtain ⟨k, ks, hrow, hk⟩ := hhead
  have hprefix : ¬ prefixPower ≤ n.form.power := fun hle => absurd (Nat.le_trans hle hpower) (by decide)
  have hsuffix : ¬ suffixPower ≤ n.form.power := fun hle => absurd (Nat.le_trans hle hpower) (by decide)
  exact ⟨⟨k, ks, hrow, hk, fun hle => absurd hle hsuffix⟩, hplain, h, fun hle => absurd hle hprefix, fun hle => absurd hle hsuffix⟩

end Node

/-! ## Literals and names -/

/-- An integer that is not negative comes back from its magnitude. -/
theorem ofNat_natAbs {n : Int64} (h : ¬ n < 0) : n.toInt.natAbs < 0x8000000000000000 ∧ Int64.ofNat n.toInt.natAbs = n := by
  have hnonneg : 0 ≤ n.toInt := by simpa using Int64.le_iff_toInt_le.mp (Int64.not_lt.mp h)
  have hlt := n.toInt_lt
  refine ⟨by omega, Int64.toInt_inj.mp ?_⟩
  rw [Int64.toInt_ofNat_of_lt (by omega)]
  omega

/-- A negative integer comes back from its magnitude, unless it is the least one. -/
theorem neg_ofNat_natAbs {n : Int64} (h : n < 0) (hmin : n ≠ Int64.minValue) :
    n.toInt.natAbs < 0x8000000000000000 ∧ -Int64.ofNat n.toInt.natAbs = n := by
  have hneg : n.toInt < 0 := by simpa using Int64.lt_iff_toInt_lt.mp h
  have hle := n.le_toInt
  have hne : n.toInt ≠ -2 ^ 63 := fun hn => hmin (Int64.toInt_inj.mp (hn.trans rfl))
  have hlt : n.toInt.natAbs < 0x8000000000000000 := by omega
  refine ⟨hlt, Int64.toInt_inj.mp ?_⟩
  have hmagnitude := Int64.toInt_ofNat_of_lt (n := n.toInt.natAbs) (by omega)
  rw [Int64.toInt_neg, hmagnitude, Int.bmod_eq_of_le (by omega) (by omega)]
  omega

theorem Double.neg_neg (x : Double) : x.neg.neg = x := by
  simp [Double.neg, UInt64.xor_assoc]

theorem toNat_characterOf {code : Nat} (h : code.isValidChar) : (characterOf code).toNat = code := by
  rw [characterOf, dif_pos h]
  rfl

namespace Kind

theorem opens_headD {row : List Kind} (h : ∃ k ks, row = k :: ks ∧ k.opens = true) (row' : List Kind) (k : Kind) :
    ((row ++ row').headD k).opens = true := by
  obtain ⟨k', ks, rfl, hk⟩ := h
  exact hk

theorem ne_of_opens {k k' : Kind} (h : k.opens = true) (h' : k'.opens = false) : k ≠ k' := by
  rintro rfl
  rw [h] at h'
  cases h'

end Kind

namespace Parser

open Node (Like like_mk)

variable {row : List Kind} {follow : Kind → Prop} {Q : Node → Prop}

theorem readsSuffixed_of_primary {k : Kind} (h : ∀ fuel, Reads (primary (fuel + 1)) [k] (fun _ => True) Q) : ReadsSuffixed [k] Q := by
  intro need fuel hfuel
  rw [List.length_singleton] at hfuel
  obtain ⟨fuel, rfl⟩ : ∃ f, fuel = f + 2 := ⟨fuel - 2, by omega⟩
  exact ⟨fuel + 1, by omega, (h fuel).bind⟩

variable {form : Form Node}

/-- A token that makes a leaf. -/
theorem reads_leaf (k : Kind) (h : ∀ loc, Q ⟨loc, form⟩) (loc : Loc) : Reads (do let _ ← advance; make loc form) [k] follow Q :=
  goes_advance fun _ _ => reads_make (h loc)

/-- A kind of token that `primary` makes a leaf of. -/
theorem reads_primary {k : Kind} (h : ∀ loc, Q ⟨loc, form⟩)
    (hleaf : ∀ fuel loc rest, primary (fuel + 1) (⟨⟨k, loc⟩ :: rest, ()⟩ : Reading Forest) =
      (do let _ ← advance; make loc form : Parser Forest Node) ⟨⟨k, loc⟩ :: rest, ()⟩) (fuel : Nat) :
    Reads (primary (fuel + 1)) [k] (fun _ => True) Q := by
  intro ts hts u rest hu
  obtain ⟨⟨kind, loc⟩, rfl, rfl⟩ := List.map_eq_singleton_iff.mp hts
  have hread : Reads (do let _ ← advance; make loc form) [kind] (fun _ => True) Q := reads_leaf kind h loc
  obtain ⟨n, hn, hrun⟩ := hread [⟨kind, loc⟩] rfl u rest hu
  exact ⟨n, hn, (hleaf fuel loc _).trans hrun⟩

theorem reads_integer {n : Nat} (hn : n < 0x8000000000000000) (h : ∀ loc, Q ⟨loc, .integer (Int64.ofNat n)⟩) (fuel : Nat) :
    Reads (primary (fuel + 1)) [.integer n] (fun _ => True) Q := by
  refine goes_current fun t ht => ?_
  simp only [ht, if_pos hn]
  exact reads_leaf _ h _

/-- A sequence that makes a tree like another. -/
theorem goes_made {α : Type} {form' : Form Node} {loc loc' : Loc} {next : Node → Parser Forest α}
    (h : (form.map Node.bare).bare = (form'.map Node.bare).bare) : Goes (make loc form >>= next) [] follow (Like · ⟨loc', form'⟩) next :=
  (reads_make (Q := (Like · ⟨loc', form'⟩)) (like_mk h)).bind

theorem reads_formOf (n : Node) : Reads (formOf n) [] follow (· = n.form) :=
  reads_nil fun _ _ _ => ⟨n.form, rfl, rfl⟩

theorem reads_change {n : Node} {loc : Option Loc} (h : Q ⟨loc.getD n.loc, form⟩) : Reads (change n loc form) [] follow Q :=
  reads_nil fun _ _ _ => ⟨_, h, rfl⟩

/-- An operator before an operand that it does not become a part of. -/
theorem reads_prefixed {operand : Node} {op : Operator} (h : op = .unaryMinus → operand.isNumber = false) (loc : Loc)
    (hQ : Q ⟨loc, .unary op operand⟩) : Reads (prefixed loc op operand) [] follow Q := by
  refine (reads_formOf operand).peek (fun form hform => ?_) fun _ hk => hk
  obtain ⟨loc', form'⟩ := operand
  obtain rfl : form = form' := hform
  split
  · cases h rfl
  · cases h rfl
  · exact reads_make hQ

/-- A minus before a literal becomes a part of it. -/
theorem reads_negated_integer {loc loc' : Loc} {n : Int64} (h : Q ⟨loc, .integer (-n)⟩) :
    Reads (prefixed loc .unaryMinus ⟨loc', .integer n⟩) [] follow Q :=
  reads_nil fun _ _ _ => ⟨_, h, rfl⟩

theorem reads_negated_floating {loc loc' : Loc} {x : Double} (h : Q ⟨loc, .floating x.neg⟩) :
    Reads (prefixed loc .unaryMinus ⟨loc', .floating x⟩) [] follow Q :=
  reads_nil fun _ _ _ => ⟨_, h, rfl⟩

/-- An operator before a row. -/
theorem ReadsUnary.prefixed {Q' : Node → Prop} (h : ReadsUnary row Q) (op : Operator) (hop : op.mark.unary? = some op)
    (hhead : ∃ k ks, row = k :: ks ∧ k.opens = true)
    (hnext : ∀ loc n, Q n → Reads (Parser.prefixed loc op n) [] (fun _ => True) Q') : ReadsUnary (.mark op.mark :: row) Q' := by
  intro fuel hfuel
  rw [List.length_cons] at hfuel
  obtain _ | fuel := fuel
  · omega
  refine goes_current fun t ht => ?_
  simp only [ht, hop]
  refine goes_advance fun _ _ => ?_
  refine goes_at_false (fun k _ => ?_) ?_
  · obtain ⟨k', ks, rfl, hk'⟩ := hhead
    exact Kind.ne_of_opens hk' rfl
  · simp only [Bool.and_false, Bool.false_eq_true, if_false]
    exact (h fuel (by omega)).last (fun n hn => (hnext _ n hn).weaken fun _ _ => trivial) fun _ hk => hk

/-- The least integer, whose digits stand for no integer without the minus. -/
theorem readsUnary_minValue (h : ∀ loc, Q ⟨loc, .integer Int64.minValue⟩) : ReadsUnary [.mark .minus, .integer 0x8000000000000000] Q := by
  intro fuel hfuel
  rw [List.length_cons] at hfuel
  obtain _ | fuel := fuel
  · omega
  refine goes_current fun t ht => ?_
  simp only [ht, Mark.unary?]
  refine goes_advance fun _ _ => ?_
  refine goes_at_true (fun _ _ => rfl) ?_
  exact reads_leaf _ h _

theorem reads_asTarget {n b : Node} (hb : b.Like n.asValue) (hn : n.isVariable = false) : Reads (asTarget b) [] follow (Like · n) := by
  have hvariable : ∀ m : Node, m.bare.isVariable = m.isVariable := by
    rintro ⟨loc, form⟩
    rw [Node.bare_mk]
    cases form <;> rfl
  refine (reads_formOf b).peek (fun form hform => ?_) fun _ hk => hk
  obtain ⟨loc, form'⟩ := b
  obtain rfl : form = form' := hform
  cases hplain : n.isIdentifier with
  | false =>
    rw [Node.asValue_of_plain hplain] at hb
    have hform : Node.isVariable ⟨loc, form⟩ = false := by rw [← hvariable, hb, hvariable, hn]
    split
    · cases hform
    · exact reads_pure hb
  | true =>
    obtain ⟨loc', form''⟩ := n
    cases form'' with
    | identifier name =>
      have hb : (form.map Node.bare).bare = .variable name := by
        have : Node.bare ⟨loc, form⟩ = ⟨.start, .variable name⟩ := hb
        rw [Node.bare_mk] at this
        exact (Node.mk.inj this).2
      cases form with
      | «variable» name' =>
        obtain rfl : name' = name := by cases hb; rfl
        exact reads_change (like_mk rfl)
      | _ => cases hb
    | _ => cases hplain

end Parser

namespace Node

open Ember.Parser

variable {loc : Loc} {form : Form Node} {k : Kind}

/-- A literal or a name of one token. -/
theorem rowComesBack_token (hrow : row ⟨loc, form⟩ = [k]) (hopens : k.opensOperand = true)
    (hread : ∀ fuel, Reads (primary (fuel + 1)) [k] (fun _ => True) (Like · (asValue ⟨loc, form⟩))) : RowComesBack ⟨loc, form⟩ := by
  refine rowComesBack_of_suffixed ⟨k, [], hrow, hopens⟩ (fun k' hk' => ?_) ?_
  · rw [hrow, List.mem_singleton] at hk'
    rw [hk']
    rintro rfl
    cases hopens
  · rw [hrow]
    exact readsSuffixed_of_primary hread

/-- A token of which `primary` makes a leaf. A name is read as the value of its variable. -/
theorem rowComesBack_leaf {leaf : Form Node} (hrow : row ⟨loc, form⟩ = [k]) (hopens : k.opensOperand = true)
    (hlike : ∀ loc', Like ⟨loc', leaf⟩ (asValue ⟨loc, form⟩))
    (hleaf : ∀ fuel loc rest, primary (fuel + 1) (⟨⟨k, loc⟩ :: rest, ()⟩ : Reading Forest) =
      (do let _ ← advance; make loc leaf : Parser Forest Node) ⟨⟨k, loc⟩ :: rest, ()⟩) : RowComesBack ⟨loc, form⟩ :=
  rowComesBack_token hrow hopens (reads_primary hlike hleaf)

/-- A number behind a minus. -/
theorem rowComesBack_negative (hpower : form.power = prefixPower) (hrow : row ⟨loc, form⟩ = [.mark .minus, k]) (hk : k ≠ .keyword .inKw)
    (hread : ReadsUnary [.mark .minus, k] (Like · (asValue ⟨loc, form⟩))) : RowComesBack ⟨loc, form⟩ := by
  refine rowComesBack_of_unary hpower ⟨_, _, hrow, rfl⟩ (fun k' hk' => ?_) ?_
  · rw [hrow] at hk'
    rcases List.mem_cons.mp hk' with rfl | hk'
    · simp
    · rw [List.mem_singleton.mp hk']
      exact hk
  · rw [hrow]
    exact hread

theorem rowComesBack_integer (loc : Loc) (n : Int64) : RowComesBack ⟨loc, .integer n⟩ := by
  have hrow : row ⟨loc, .integer n⟩ = (if n < 0 then [.mark .minus] else []) ++ [.integer n.toInt.natAbs] := rfl
  by_cases hneg : n < 0
  · refine rowComesBack_negative (if_pos hneg) (hrow.trans (by rw [if_pos hneg]; rfl)) (by simp) ?_
    by_cases hmin : n = Int64.minValue
    · subst hmin
      exact readsUnary_minValue fun _ => like_mk rfl
    · obtain ⟨hlt, hvalue⟩ := neg_ofNat_natAbs hneg hmin
      have hopens : (Kind.integer n.toInt.natAbs).opensOperand = true := by simpa [Kind.opensOperand] using hlt
      have hmagnitude : ReadsUnary [.integer n.toInt.natAbs] fun m => m.form = .integer (Int64.ofNat n.toInt.natAbs) :=
        (readsSuffixed_of_primary (reads_integer hlt fun _ => rfl)).unary ⟨_, _, rfl, hopens⟩
      refine hmagnitude.prefixed .unaryMinus rfl ⟨_, _, rfl, Kind.opens_of_opensOperand hopens⟩ ?_
      rintro loc' ⟨loc'', form⟩ rfl
      exact reads_negated_integer (like_mk (by rw [hvalue]))
  · obtain ⟨hlt, hvalue⟩ := ofNat_natAbs hneg
    exact rowComesBack_token (hrow.trans (by rw [if_neg hneg]; rfl)) (by simpa [Kind.opensOperand] using hlt)
      (reads_integer hlt fun _ => like_mk (by rw [hvalue]))

theorem rowComesBack_floating (loc : Loc) (x : Double) : RowComesBack ⟨loc, .floating x⟩ := by
  cases hneg : x.isNegative with
  | true =>
    refine rowComesBack_negative (k := .floating x.neg) (if_pos hneg) (if_pos hneg) (by simp) ?_
    have hmagnitude : ReadsUnary [.floating x.neg] fun m => m.form = .floating x.neg :=
      (readsSuffixed_of_primary (reads_primary (fun _ => rfl) fun _ _ _ => rfl)).unary ⟨_, _, rfl, rfl⟩
    refine hmagnitude.prefixed .unaryMinus rfl ⟨_, _, rfl, rfl⟩ ?_
    rintro loc' ⟨loc'', form⟩ rfl
    exact reads_negated_floating (like_mk (by rw [Double.neg_neg]))
  | false =>
    exact rowComesBack_leaf (k := .floating x) (if_neg (by simp [hneg])) rfl (fun _ => like_mk rfl) fun _ _ _ => rfl

theorem rowComesBack_literal (hl : form.literal?.isSome = true) (hr : form.InRange) : RowComesBack ⟨loc, form⟩ := by
  cases form with
  | integer n => exact rowComesBack_integer loc n
  | floating x => exact rowComesBack_floating loc x
  | boolean value =>
    cases value with
    | true => exact rowComesBack_leaf (k := .keyword .trueKw) rfl rfl (fun _ => like_mk rfl) fun _ _ _ => rfl
    | false => exact rowComesBack_leaf (k := .keyword .falseKw) rfl rfl (fun _ => like_mk rfl) fun _ _ _ => rfl
  | string value forC =>
    cases forC with
    | true => exact rowComesBack_leaf (k := .cstring value) rfl rfl (fun _ => like_mk rfl) fun _ _ _ => rfl
    | false => exact rowComesBack_leaf (k := .string value) rfl rfl (fun _ => like_mk rfl) fun _ _ _ => rfl
  | character code byte =>
    cases byte with
    | true => exact rowComesBack_leaf (k := .byte code) rfl rfl (fun _ => like_mk rfl) fun _ _ _ => rfl
    | false =>
      have hcode : (characterOf code).toNat = code := toNat_characterOf hr
      exact rowComesBack_leaf (k := .character (characterOf code)) rfl rfl (fun _ => like_mk (by rw [hcode])) fun _ _ _ => rfl
  | nothing => exact rowComesBack_leaf (k := .keyword .noneKw) rfl rfl (fun _ => like_mk rfl) fun _ _ _ => rfl
  | _ => cases hl

end Node

/-! ## Operators -/

/-- A mark between operands may stand behind what binds as strongly. -/
theorem Kind.follows_mark {m : Mark} {power : Nat} {op : Operator} (h : m.binary? = some (power, op)) {least : Nat} (hle : power ≤ least) :
    Kind.Follows least (.mark m) where
  apart := by cases m <;> first | rfl | cases h
  loose := fun q hq => by
    rw [Kind.power?, h] at hq
    cases hq
    exact hle

namespace Parser

open Node (Like like_mk)

variable {row : List Kind} {Q : Node → Prop}

variable {left : Node} {least fuel : Nat}

/-- The loop takes an operator that groups to the left, and goes on. -/
theorem goes_operators_binary {op : Operator} {right : Node} (hop : op.mark.binary? = some (op.power, op))
    (hassign : op.power ≠ assignmentPower) (hle : least ≤ op.power)
    (hright : Reads (Parser.expr fuel (op.power + 1)) row (Kind.Stops (op.power + 1)) (Like · right))
    (hQ : ∀ loc r, Like r right → Q ⟨loc, .binary op left r⟩) :
    Goes (operators (fuel + 1) least left) (.mark op.mark :: row) (Kind.Follows op.power) Q (operators fuel least) := by
  refine goes_current fun t ht => ?_
  simp only [ht, hop, if_neg (Nat.not_lt.mpr hle), if_neg hassign]
  refine goes_advance fun _ _ => ?_
  refine hright.last (fun r hr => ?_) fun k hk => ⟨hk.apart, fun q hq => Nat.lt_succ_of_le (hk.loose q hq)⟩
  exact (reads_make (hQ _ r hr)).bind

/-- The loop takes an assignment, and goes on. -/
theorem goes_operators_assign {op : Operator} {target value : Node} (hop : op.mark.binary? = some (assignmentPower, op))
    (hle : least ≤ assignmentPower) (hvalue : Reads (Parser.expr fuel assignmentPower) row (Kind.Stops assignmentPower) (Like · value))
    (hleft : left.Like target.asValue) (htarget : target.isVariable = false)
    (hQ : ∀ loc l v, Like l target → Like v value → Q ⟨loc, .assign op l v⟩) :
    Goes (operators (fuel + 1) least left) (.mark op.mark :: row) (Kind.Stops assignmentPower) Q (operators fuel least) := by
  refine goes_current fun t ht => ?_
  simp only [ht, hop, if_neg (Nat.not_lt.mpr hle), if_true]
  refine goes_advance fun _ _ => ?_
  refine hvalue.last (fun v hv => ?_) fun k hk => hk
  refine (reads_asTarget hleft htarget).last (fun l hl => ?_) fun _ hk => hk
  exact (reads_make (hQ _ l v hl hv)).bind

/-- The loop takes a cast, and goes on. -/
theorem goes_operators_cast (type : TypeRef) (hle : least ≤ castPower)
    (hQ : ∀ loc type', TypeRef.bare type' = type.bare → Q ⟨loc, .cast left type'⟩) :
    Goes (operators (fuel + 1) least left) (.keyword .asKw :: Kind.ofType type) (fun _ => True) Q (operators fuel least) := by
  refine goes_current fun t ht => ?_
  simp only [ht, if_neg (Nat.not_lt.mpr hle)]
  refine goes_advance fun _ _ => ?_
  refine (reads_typeRef type).ends fun type' htype => ?_
  exact (reads_make (hQ _ type' htype)).bind

end Parser

namespace Node

open Ember.Parser

variable {n : Node} {loc : Loc} {op : Operator} {k : Kind}

theorem Follow.follows (h : n.Follow k) (hpower : assignmentPower < n.form.power) : Kind.Follows n.form.power k := by
  rwa [Follow, if_neg (Nat.not_le.mpr hpower)] at h

theorem Follow.stops (h : n.Follow k) (hpower : n.form.power ≤ assignmentPower) : Kind.Stops assignmentPower k := by
  rwa [Follow, if_pos hpower] at h

/-- The head of a row that starts with a child. -/
theorem ComesBack.head_append (h : n.ComesBack) (least : Nat) (rest : List Kind) :
    ∃ k ks, n.print least ++ rest = k :: ks ∧ k.opens = true := by
  obtain ⟨k, ks, hrow, hk⟩ := h.head least
  exact ⟨k, ks ++ rest, by rw [hrow, List.cons_append], hk⟩

/-- The row of an operand with an operator behind it, and what the operator takes. -/
theorem rowComesBack_between {form : Form Node} {operand : Node} {power : Nat} {more : List Kind} (ho : operand.ComesBack)
    (hrow : row ⟨loc, form⟩ = operand.print power ++ k :: more) (hcast : form.power ≤ castPower) (hle : form.power ≤ power)
    (hpower : assignmentPower < power) (hk : k ≠ .keyword .inKw) (hplain : ∀ k ∈ more, k ≠ .keyword .inKw) (hfollows : Kind.Follows power k)
    (hmore : ∀ least fuel, least ≤ form.power → 8 * more.length + 1 ≤ fuel → ∀ l, Like l operand.asValue →
      Goes (operators (fuel + 1) least l) (k :: more) (Follow ⟨loc, form⟩) (Like · (asValue ⟨loc, form⟩)) (operators fuel least)) :
    RowComesBack ⟨loc, form⟩ := by
  refine rowComesBack_of_expr hcast (hrow ▸ ho.head_append _ _) (fun k' hk' => ?_) fun least hleast need fuel hfuel => ?_
  · rw [hrow] at hk'
    exact List.forall_mem_append.mpr ⟨ho.plain _, List.forall_mem_cons.mpr ⟨hk, hplain⟩⟩ k' hk'
  · rw [hrow] at hfuel ⊢
    rw [List.length_append, List.length_cons] at hfuel
    obtain ⟨fuel', hneed, hgoes⟩ := ho.operand power least (Nat.le_trans hleast hle) hpower (8 * more.length + need + 2) fuel (by omega)
    obtain _ | fuel' := fuel'
    · omega
    exact ⟨fuel', by omega, hgoes.trans (hmore least fuel' hleast (by omega)) fun _ _ => hfollows⟩

theorem rowComesBack_binary {left right : Node} (hl : left.ComesBack) (hlp : left.isIdentifier = false) (hr : right.ComesBack)
    (hrp : right.isIdentifier = false) (hop : ∃ (m : Mark) (power : Nat), m.binary? = some (power, op) ∧ power ≠ assignmentPower) :
    RowComesBack ⟨loc, .binary op left right⟩ := by
  obtain ⟨m, power, hm, hassign⟩ := hop
  obtain rfl := Operator.mark_of_binary? hm
  have hpower : op.power = power := by rw [Operator.power, hm]; rfl
  subst hpower
  have hlow : assignmentPower < op.power ∧ op.power ≤ castPower := by
    cases op <;> first | exact ⟨by decide, by decide⟩ | exact absurd rfl hassign | cases hm
  refine rowComesBack_between hl rfl hlow.2 (Nat.le_refl op.power) hlow.1 (by simp) (hr.plain _) (Kind.follows_mark hm (Nat.le_refl _))
    fun least fuel hle hfuel l hl' => ?_
  have hright := hr.expr (op.power + 1) fuel hfuel
  rw [asValue_of_plain hlp] at hl'
  rw [asValue_of_plain hrp] at hright
  refine (goes_operators_binary hm hassign hle hright fun loc' r hr' => ?_).weaken fun _ hk => hk.follows hlow.1
  exact like_mk (by simp only [Form.map, Form.bare, show l.bare = left.bare from hl', show r.bare = right.bare from hr'])

theorem rowComesBack_assign {target value : Node} (ht : target.ComesBack) (htv : target.isVariable = false) (hv : value.ComesBack)
    (hvp : value.isIdentifier = false) (hop : ∃ m : Mark, m.binary? = some (assignmentPower, op)) :
    RowComesBack ⟨loc, .assign op target value⟩ := by
  obtain ⟨m, hm⟩ := hop
  obtain rfl := Operator.mark_of_binary? hm
  refine rowComesBack_between ht rfl (show assignmentPower ≤ castPower by decide) (Nat.le_succ assignmentPower) (Nat.lt_succ_self _) (by simp)
    (hv.plain _) (Kind.follows_mark hm (Nat.le_succ _)) fun least fuel hle hfuel l hl => ?_
  have hvalue := hv.expr assignmentPower fuel hfuel
  rw [asValue_of_plain hvp] at hvalue
  refine (goes_operators_assign hm hle hvalue hl htv fun loc' l' v' hl' hv' => ?_).weaken fun _ hk => hk.stops (Nat.le_refl _)
  exact like_mk (by simp only [Form.map, Form.bare, show l'.bare = target.bare from hl', show v'.bare = value.bare from hv'])

theorem rowComesBack_cast {inner : Node} {type : TypeRef} (hi : inner.ComesBack) (hip : inner.isIdentifier = false) :
    RowComesBack ⟨loc, .cast inner type⟩ := by
  refine rowComesBack_between hi rfl (Nat.le_refl castPower) (Nat.le_refl castPower) (by decide) (by simp) (fun k hk => ?_)
    ⟨rfl, fun q hq => ?_⟩ fun least fuel hle _ l hl => ?_
  · unfold Kind.ofType at hk
    cases hm : type.mutable <;> simp [hm] at hk <;> rcases hk with rfl | rfl <;> simp
  · cases hq
    exact Nat.le_refl _
  · rw [asValue_of_plain hip] at hl
    refine (goes_operators_cast type hle fun loc' type' ht => ?_).weaken fun _ _ => trivial
    exact like_mk (by simp only [Form.map, Form.bare, show l.bare = inner.bare from hl, ht])

theorem rowComesBack_unary {operand : Node} (ho : operand.ComesBack) (hop : operand.isIdentifier = false)
    (hmark : ∃ m : Mark, m.unary? = some op) (hnumber : op = .unaryMinus → operand.isNumber = false) :
    RowComesBack ⟨loc, .unary op operand⟩ := by
  obtain ⟨m, hm⟩ := hmark
  obtain rfl := Operator.mark_of_unary? hm
  refine rowComesBack_of_unary rfl ⟨_, _, rfl, ?_⟩ (fun k hk => ?_) ?_
  · simp [Kind.opens, hm]
  · rcases List.mem_cons.mp hk with rfl | hk
    · simp
    · exact ho.plain _ k hk
  · refine ho.unary.prefixed op hm (ho.head _) fun loc' n hn => ?_
    rw [asValue_of_plain hop] at hn
    refine reads_prefixed (fun hminus => ?_) loc' (like_mk ?_)
    · rw [isNumber_of_like hn]
      exact hnumber hminus
    · simp only [Form.map, Form.bare, show n.bare = operand.bare from hn]

end Node

/-! ## Calls, members and subscripts -/

namespace Parser

open Node (Like like_mk)

variable {row : List Kind} {Q : Node → Prop}

/-- Something more behind an operand. -/
theorem ReadsSuffixed.append {more : List Kind} {Q' : Node → Prop} (h : ReadsSuffixed row Q) (hne : more ≠ [])
    (hmore : ∀ fuel, 8 * more.length ≤ fuel + 1 → ∀ n, Q n → Goes (suffixes (fuel + 1) n) more (fun _ => True) Q' (suffixes fuel)) :
    ReadsSuffixed (row ++ more) Q' := by
  intro need fuel hfuel
  have hpos := List.length_pos_iff.mpr hne
  rw [List.length_append] at hfuel
  obtain ⟨fuel', hneed, hgoes⟩ := h (8 * more.length + need) fuel (by omega)
  obtain _ | fuel' := fuel'
  · omega
  exact ⟨fuel', by omega, hgoes.trans (hmore fuel' (by omega)) fun _ _ => trivial⟩

theorem stops_of_power {k : Kind} (hs : k.isSuffix = false) (hp : k.power? = none) (least : Nat) : Kind.Stops least k :=
  ⟨hs, fun q hq => by rw [hp] at hq; cases hq⟩

variable {fuel : Nat} {operand object : Node}

/-- A whole expression that stands for a value. -/
theorem reads_value {n : Node} (h : n.ComesBack) (hp : n.isIdentifier = false) (hfuel : 8 * (n.print 0).length + 1 ≤ fuel) :
    Reads (Parser.expr fuel 0) (n.print 0) (Kind.Stops 0) (Like · n) := by
  have := h.expr 0 fuel hfuel
  rwa [Node.asValue_of_plain hp] at this

/-- A list of trees divided by commas, up to a closing parenthesis. -/
theorem reads_separated {list : Nat → Parser Forest (List Node)} {element : Nat → Parser Forest Node} (hlist : ∀ fuel, list (fuel + 1) = do
      if (← at? (.mark .rParen)) || (← atEnd) then return []
      let n ← element fuel
      if ← consume (.mark .comma) then return n :: (← list fuel)
      return [n]) {nodes : List Node} (hhead : ∀ n ∈ nodes, ∃ k ks, n.print 0 = k :: ks ∧ k ≠ .mark .rParen ∧ k ≠ .endOfFile)
    (helement : ∀ n ∈ nodes, ∀ fuel, 8 * (n.print 0).length + 1 ≤ fuel →
      Reads (element fuel) (n.print 0) (fun k => k = .mark .comma ∨ k = .mark .rParen) (Like · n))
    (fuel : Nat) (hfuel : 8 * (Kind.separated (nodes.map (·.print 0))).length + 2 ≤ fuel) :
    Reads (list fuel) (Kind.separated (nodes.map (·.print 0))) (· = .mark .rParen) (fun l => l.map Node.bare = nodes.map Node.bare) := by
  induction nodes generalizing fuel with
  | nil =>
    obtain _ | fuel := fuel
    · omega
    rw [hlist]
    refine goes_at_true (fun _ hk => hk) ?_
    refine (reads_at_false .endOfFile).peek (fun b _ => ?_) fun k hk => show k ≠ .endOfFile by rw [hk]; simp
    rw [Bool.true_or, if_pos rfl]
    exact reads_pure rfl
  | cons n nodes ih =>
    obtain ⟨⟨k, ks, hrow, hparen, hend⟩, hhead⟩ := List.forall_mem_cons.mp hhead
    obtain ⟨hn, helement⟩ := List.forall_mem_cons.mp helement
    obtain _ | fuel := fuel
    · omega
    have hfirst : ∀ (rest : List Kind) (u : Kind), (n.print 0 ++ rest).headD u = k := fun rest u => by rw [hrow]; rfl
    -- the element itself, and what is behind it
    have hstart : ∀ {rest : List Kind} {follow : Kind → Prop} {Q' : List Node → Prop}, 8 * (n.print 0).length + 1 ≤ fuel →
        (∀ m, Like m n → Reads (do
          if ← consume (.mark .comma) then return m :: (← list fuel)
          return [m]) rest follow Q') → (∀ k, follow k → rest.headD k = .mark .comma ∨ rest.headD k = .mark .rParen) →
        Reads (list (fuel + 1)) (n.print 0 ++ rest) follow Q' := by
      intro rest follow Q' hfuel hrest hfollow
      rw [hlist]
      refine goes_at_false (fun u _ => by rw [hfirst]; exact hparen) ?_
      refine goes_at_false (fun u _ => by rw [hfirst]; exact hend) ?_
      exact (hn fuel hfuel).then hrest hfollow
    cases nodes with
    | nil =>
      have hrow : Kind.separated ([n].map (·.print 0)) = n.print 0 ++ [] := (List.append_nil _).symm
      rw [hrow] at hfuel ⊢
      rw [List.append_nil] at hfuel
      refine hstart (by omega) (fun m hm => ?_) fun k hk => .inr hk
      refine goes_consume_false (fun k hk => by rw [List.headD_nil, hk]; simp) ?_
      exact reads_pure (congrArg (fun b => [b]) hm)
    | cons n' nodes =>
      have hrow : Kind.separated ((n :: n' :: nodes).map (·.print 0)) =
        n.print 0 ++ .mark .comma :: Kind.separated ((n' :: nodes).map (·.print 0)) := rfl
      rw [hrow] at hfuel ⊢
      rw [List.length_append, List.length_cons] at hfuel
      refine hstart (by omega) (fun m hm => ?_) fun _ _ => .inl rfl
      refine goes_consume_true ?_
      refine (ih hhead helement fuel (by omega)).last (fun l hl => reads_pure ?_) fun _ hk => hk
      rw [List.map_cons, List.map_cons, hl, show m.bare = n.bare from hm]

/-- The arguments of a call. -/
theorem reads_arguments {args : List Node} (hargs : ∀ a ∈ args, a.ComesBack) (hplain : ∀ a ∈ args, a.isIdentifier = false) (fuel : Nat)
    (hfuel : 8 * (Kind.separated (args.map (·.print 0))).length + 2 ≤ fuel) :
    Reads (arguments fuel) (Kind.separated (args.map (·.print 0))) (· = .mark .rParen) (fun l => l.map Node.bare = args.map Node.bare) := by
  refine reads_separated (fun _ => rfl) (fun a ha => ?_) (fun a ha fuel hfuel => ?_) fuel hfuel
  · obtain ⟨k, ks, hrow, hk⟩ := (hargs a ha).head 0
    exact ⟨k, ks, hrow, Kind.ne_of_opens hk rfl, Kind.ne_of_opens hk rfl⟩
  · refine (reads_value (hargs a ha) (hplain a ha) hfuel).weaken ?_
    rintro k (rfl | rfl)
    · exact stops_of_power rfl rfl 0
    · exact stops_of_power rfl rfl 0

/-- A part that may be missing, before a token that the part cannot start with. -/
theorem goes_optional {α γ : Type} {part : Parser Forest Node} {next : Option Node → Parser Forest α} {q : γ → Parser Forest α}
    {rest : List Kind} {follow : Kind → Prop} {Q' : γ → Prop} {value : Option Node} {k : Kind}
    (hpart : ∀ n, value = some n → Reads part (n.print 0) (· = k) (Like · n) ∧ ∃ k' ks, n.print 0 = k' :: ks ∧ k' ≠ k)
    (hnext : ∀ v : Option Node, v.map Node.bare = value.map Node.bare → Goes (next v) rest follow Q' q)
    (hrest : ∀ u, follow u → rest.headD u = k) :
    Goes (at? k >>= fun b => if b then pure none >>= next else some <$> part >>= next) (Form.optional (value.map fun n => (n, n.print)) ++ rest)
      follow Q' q := by
  cases value with
  | none =>
    refine goes_at_true (hrest) ?_
    have hnone : Reads (pure none : Parser Forest (Option Node)) [] (fun _ => True) fun v => v.map Node.bare = none := reads_pure rfl
    exact hnone.peek hnext fun _ _ => trivial
  | some n =>
    obtain ⟨hread, k', ks, hrow, hne⟩ := hpart n rfl
    refine goes_at_false (fun u _ => ?_) ?_
    · show (n.print 0 ++ rest).headD u ≠ k
      rw [hrow]
      exact hne
    · exact (reads_map hread fun m hm => show some m.bare = some n.bare from congrArg some hm).then hnext hrest

theorem goes_suffixes_call {callee : Node} (hcallee : operand.Like callee.asValue) (hv : callee.isVariable = false) {args : List Node}
    (hargs : ∀ a ∈ args, a.ComesBack) (hplain : ∀ a ∈ args, a.isIdentifier = false)
    (hfuel : 8 * (Kind.separated (args.map (·.print 0))).length + 2 ≤ fuel) (loc : Loc) :
    Goes (suffixes (fuel + 1) operand) (.mark .lParen :: (Kind.separated (args.map (·.print 0)) ++ [.mark .rParen])) (fun _ => True)
      (Like · ⟨loc, .call callee args⟩) (suffixes fuel) := by
  refine goes_here fun loc' => ?_
  refine goes_consume_true ?_
  refine (reads_arguments hargs hplain fuel hfuel).then (fun l hl => ?_) fun _ _ => rfl
  refine goes_expect fun _ => ?_
  refine (reads_asTarget hcallee hv).last (fun c hc => ?_) fun _ hk => hk
  refine goes_made ?_
  simp only [Form.map, Form.bare, show c.bare = callee.bare from hc, hl]

theorem goes_suffixes_member (hobject : operand.Like object) (name : String) (fuel : Nat) (loc : Loc) :
    Goes (suffixes (fuel + 1) operand) [.mark .dot, .ident name] (fun _ => True) (Like · ⟨loc, .member object name⟩) (suffixes fuel) := by
  refine goes_here fun loc' => ?_
  refine goes_consume_false (fun _ _ => by simp) ?_
  refine goes_consume_true ?_
  refine (reads_identifier _ name).ends fun name' hname => ?_
  subst hname
  refine goes_made ?_
  simp only [Form.map, Form.bare, show operand.bare = object.bare from hobject]

theorem goes_suffixes_subscript {index : Node} (hobject : operand.Like object) (hi : index.ComesBack) (hip : index.isIdentifier = false)
    (hfuel : 8 * (index.print 0).length + 1 ≤ fuel) (loc : Loc) :
    Goes (suffixes (fuel + 1) operand) (.mark .lBracket :: (index.print 0 ++ [.mark .rBracket])) (fun _ => True)
      (Like · ⟨loc, .subscript object index⟩) (suffixes fuel) := by
  refine goes_here fun loc' => ?_
  refine goes_consume_false (fun _ _ => by simp) ?_
  refine goes_consume_false (fun _ _ => by simp) ?_
  refine goes_consume_true ?_
  obtain ⟨k, ks, hrow, hk⟩ := hi.head 0
  refine goes_at_false (fun u _ => ?_) ?_
  · rw [hrow]
    exact Kind.ne_of_opens hk rfl
  · have hindex : Reads (some <$> Parser.expr fuel 0) (index.print 0) (Kind.Stops 0) fun v => v.map Node.bare = some index.bare :=
      reads_map (reads_value hi hip hfuel) fun m hm => congrArg some hm
    refine hindex.then (fun first hfirst => ?_) fun _ _ => stops_of_power rfl rfl 0
    obtain ⟨i, rfl, hi'⟩ := Option.map_eq_some_iff.mp hfirst
    refine goes_consume_false (fun _ _ => by simp) ?_
    refine goes_expect fun _ => ?_
    refine goes_made ?_
    simp only [Form.map, Form.bare, show operand.bare = object.bare from hobject, hi']

theorem goes_suffixes_slice (hobject : operand.Like object) {first last : Option Node}
    (hfirst : ∀ n, first = some n → n.ComesBack ∧ n.isIdentifier = false)
    (hlast : ∀ n, last = some n → n.ComesBack ∧ n.isIdentifier = false)
    (hfuel : 8 * ((Form.optional (first.map fun n => (n, n.print))).length +
      (Form.optional (last.map fun n => (n, n.print))).length) + 1 ≤ fuel) (loc : Loc) :
    Goes (suffixes (fuel + 1) operand) (.mark .lBracket :: (Form.optional (first.map fun n => (n, n.print)) ++ .mark .colon ::
      (Form.optional (last.map fun n => (n, n.print)) ++ [.mark .rBracket]))) (fun _ => True)
      (Like · ⟨loc, .slice object first last⟩) (suffixes fuel) := by
  have hpart : ∀ {value : Option Node} {k : Kind}, (∀ n, value = some n → n.ComesBack ∧ n.isIdentifier = false) →
      8 * (Form.optional (value.map fun n => (n, n.print))).length + 1 ≤ fuel → k.isSuffix = false → k.power? = none → k.opens = false →
      ∀ n, value = some n → Reads (Parser.expr fuel 0) (n.print 0) (· = k) (Like · n) ∧ ∃ k' ks, n.print 0 = k' :: ks ∧ k' ≠ k := by
    rintro value k hvalue hfuel hs hp ho n rfl
    obtain ⟨hn, hplain⟩ := hvalue n rfl
    obtain ⟨k', ks, hrow, hk'⟩ := hn.head 0
    refine ⟨(reads_value hn hplain hfuel).weaken fun u hu => hu ▸ stops_of_power hs hp 0, k', ks, hrow, Kind.ne_of_opens hk' ho⟩
  refine goes_here fun loc' => ?_
  refine goes_consume_false (fun _ _ => by simp) ?_
  refine goes_consume_false (fun _ _ => by simp) ?_
  refine goes_consume_true ?_
  refine goes_optional (hpart hfirst (by omega) rfl rfl rfl) (fun f hf => ?_) fun _ _ => rfl
  refine goes_consume_true ?_
  refine goes_optional (hpart hlast (by omega) rfl rfl rfl) (fun l hl => ?_) fun _ _ => rfl
  refine goes_expect fun _ => ?_
  refine goes_made ?_
  simp only [Form.map, Form.bare, show operand.bare = object.bare from hobject, hf, hl]

end Parser

namespace Node

open Ember.Parser

variable {loc : Loc} {object : Node}

/-- The row of an operand with something more behind it. -/
theorem rowComesBack_append {form : Form Node} {operand : Node} {more : List Kind} (ho : operand.ComesBack)
    (hrow : row ⟨loc, form⟩ = operand.print suffixPower ++ more) (hplain : isIdentifier ⟨loc, form⟩ = false) (hne : more ≠ [])
    (hin : ∀ k ∈ more, k ≠ .keyword .inKw) (hmore : ∀ fuel, 8 * more.length ≤ fuel + 1 → ∀ n, Like n operand.asValue →
      Goes (suffixes (fuel + 1) n) more (fun _ => True) (Like · ⟨loc, form⟩) (suffixes fuel)) : RowComesBack ⟨loc, form⟩ := by
  obtain ⟨k, ks, hk, hopens⟩ := ho.headSuffixed
  refine rowComesBack_of_suffixed ⟨k, ks ++ more, by rw [hrow, hk, List.cons_append], hopens⟩ (fun k' hk' => ?_) ?_
  · rw [hrow] at hk'
    exact (List.mem_append.mp hk').elim (ho.plain _ k') (hin k')
  · rw [hrow, asValue_of_plain hplain]
    exact ho.suffixed.append hne hmore

theorem not_in_separated {rows : List (List Kind)} (h : ∀ row ∈ rows, ∀ k ∈ row, k ≠ .keyword .inKw) :
    ∀ k ∈ Kind.separated rows, k ≠ .keyword .inKw := by
  induction rows with
  | nil => exact nofun
  | cons row rows ih =>
    obtain ⟨hrow, hrows⟩ := List.forall_mem_cons.mp h
    cases rows with
    | nil => exact hrow
    | cons row' rows => exact List.forall_mem_append.mpr ⟨hrow, List.forall_mem_cons.mpr ⟨by simp, ih hrows⟩⟩

theorem not_in_optional {value : Option Node} (h : ∀ n, value = some n → n.ComesBack ∧ n.isIdentifier = false) :
    ∀ k ∈ Form.optional (value.map fun n => (n, n.print)), k ≠ .keyword .inKw := by
  cases value with
  | none => exact nofun
  | some n => exact (h n rfl).1.plain 0

theorem rowComesBack_call {callee : Node} {args : List Node} (hc : callee.ComesBack) (hv : callee.isVariable = false)
    (hargs : ∀ a ∈ args, a.ComesBack) (hplain : ∀ a ∈ args, a.isIdentifier = false) : RowComesBack ⟨loc, .call callee args⟩ := by
  have hrow : row ⟨loc, .call callee args⟩ = callee.print suffixPower ++
      .mark .lParen :: (Kind.separated (args.map (·.print 0)) ++ [.mark .rParen]) := by
    show callee.print suffixPower ++ _ :: (Kind.separated ((args.map _).map _) ++ _) = _
    rw [List.map_map]
    rfl
  refine rowComesBack_append hc hrow rfl (List.cons_ne_nil _ _) ?_ fun fuel hfuel n hn => ?_
  · refine List.forall_mem_cons.mpr ⟨by simp, List.forall_mem_append.mpr ⟨not_in_separated ?_, by simp⟩⟩
    exact List.forall_mem_map.mpr fun a ha => (hargs a ha).plain 0
  · simp only [List.length_cons, List.length_append, List.length_nil] at hfuel
    exact goes_suffixes_call hn hv hargs hplain (by omega) loc

theorem rowComesBack_member {name : String} (ho : object.ComesBack) (hop : object.isIdentifier = false) :
    RowComesBack ⟨loc, .member object name⟩ := by
  refine rowComesBack_append ho rfl rfl (List.cons_ne_nil _ _) (by simp) fun fuel _ n hn => ?_
  rw [asValue_of_plain hop] at hn
  exact goes_suffixes_member hn name fuel loc

theorem rowComesBack_subscript {index : Node} (ho : object.ComesBack) (hop : object.isIdentifier = false) (hi : index.ComesBack)
    (hip : index.isIdentifier = false) : RowComesBack ⟨loc, .subscript object index⟩ := by
  refine rowComesBack_append ho rfl rfl (List.cons_ne_nil _ _) ?_ fun fuel hfuel n hn => ?_
  · exact List.forall_mem_cons.mpr ⟨by simp, List.forall_mem_append.mpr ⟨hi.plain 0, by simp⟩⟩
  · rw [asValue_of_plain hop] at hn
    simp only [List.length_cons, List.length_append, List.length_nil] at hfuel
    exact goes_suffixes_subscript hn hi hip (by omega) loc

theorem rowComesBack_slice {first last : Option Node} (ho : object.ComesBack) (hop : object.isIdentifier = false)
    (hfirst : ∀ n, first = some n → n.ComesBack ∧ n.isIdentifier = false)
    (hlast : ∀ n, last = some n → n.ComesBack ∧ n.isIdentifier = false) : RowComesBack ⟨loc, .slice object first last⟩ := by
  refine rowComesBack_append ho rfl rfl (List.cons_ne_nil _ _) ?_ fun fuel hfuel n hn => ?_
  · exact List.forall_mem_cons.mpr ⟨by simp, List.forall_mem_append.mpr ⟨not_in_optional hfirst,
      List.forall_mem_cons.mpr ⟨by simp, List.forall_mem_append.mpr ⟨not_in_optional hlast, by simp⟩⟩⟩⟩
  · rw [asValue_of_plain hop] at hn
    simp only [List.length_cons, List.length_append, List.length_nil] at hfuel
    exact goes_suffixes_slice hn hfirst hlast (by omega) loc

/-- Every expression comes back. -/
theorem IsExpression.comesBack {n : Node} (h : n.IsExpression) : n.ComesBack := by
  induction h with
  | literal hl hr => exact (rowComesBack_literal hl hr).comesBack
  | identifier | «variable» => exact (rowComesBack_leaf rfl rfl (fun _ => like_mk rfl) fun _ _ _ => rfl).comesBack
  | cast _ hp _ ih => exact (rowComesBack_cast ih hp).comesBack
  | call _ hv _ hplain ihc iha => exact (rowComesBack_call ihc hv iha hplain).comesBack
  | member _ hp _ ih => exact (rowComesBack_member ih hp).comesBack
  | subscript _ hop _ hip iho ihi => exact (rowComesBack_subscript iho hop ihi hip).comesBack
  | slice _ hop _ hfp _ hlp iho ihf ihl =>
    exact (rowComesBack_slice iho hop (fun n hn => ⟨ihf n hn, hfp n hn⟩) fun n hn => ⟨ihl n hn, hlp n hn⟩).comesBack
  | unary _ hp hmark hnumber ih => exact (rowComesBack_unary ih hp hmark hnumber).comesBack
  | binary _ hlp _ hrp hop ihl ihr => exact (rowComesBack_binary ihl hlp ihr hrp hop).comesBack
  | assign _ htv _ hvp hop iht ihv => exact (rowComesBack_assign iht htv ihv hvp hop).comesBack

end Node

end Ember
