import Ember.Proofs.Literal.Numeral
import Ember.Proofs.Tree.RoundTrip

/-!
# Reading a function that returns a literal

The source `def f(): T { return ...; }` with a numeral, perhaps behind a minus. Its tokens are those of the function around that of
the numeral (`scan_returning`). If the integer that is written is a word of 64 bits, parsing gives the function with this literal, and
else it fails at the numeral (`parse_returning`).
-/

namespace Ember

open Scan

/-! ## Parts of parsers -/

namespace Parser

variable {α β γ : Type} {row row' : List Kind} {follow follow' : Kind → Prop} {k : Kind} {Q : β → Prop} {p : Parser Forest β}

/-- When a part goes on as another parser, so does a sequence that starts with it. -/
theorem Goes.bind {q : γ → Parser Forest β} {Q : γ → Prop} (next : β → Parser Forest α) (h : Goes p row follow Q q) :
    Goes (p >>= next) row follow Q fun c => q c >>= next := by
  intro ts hts u rest hu
  obtain ⟨c, hc, hp⟩ := h ts hts u rest hu
  refine ⟨c, hc, ?_⟩
  show (p ⟨ts ++ u :: rest, ()⟩).bind _ = (q c ⟨u :: rest, ()⟩).bind _
  rw [hp]

theorem goes_self (q : β → Parser Forest α) {b : β} (hb : Q b) : Goes (q b) [] follow Q q := by
  intro ts hts u rest _
  obtain rfl := List.map_eq_nil_iff.mp hts
  exact ⟨b, hb, rfl⟩

/-- The parser finds something else than it expects in a row. -/
def Fails (p : Parser Forest α) (row : List Kind) : Prop :=
  Goes p row (fun _ => True) (fun f => f.tag = "SyntaxError") throw

theorem Fails.bind (next : β → Parser Forest α) (h : Fails p row) : Fails (p >>= next) row :=
  Goes.bind next h

theorem Goes.fails {p : Parser Forest α} {q : β → Parser Forest α} (h : Goes p row follow Q q) (hq : ∀ b, Q b → Fails (q b) row')
    (hfollow : ∀ k, follow (row'.headD k)) : Fails p (row ++ row') :=
  h.trans hq fun k _ => hfollow k

theorem Reads.fails {next : β → Parser Forest α} (h : Reads p [] follow Q) (hnext : ∀ b, Q b → Fails (next b) row)
    (hfollow : ∀ k, follow (row.headD k)) : Fails (p >>= next) row :=
  h.bind.fails hnext hfollow

/-! ## Literals -/

/-- The token of a number that is no integer. -/
def TooLarge (k : Kind) : Prop :=
  (∃ n, k = .integer n ∧ 0x8000000000000000 ≤ n) ∨ ∃ text, k = .oversized text

theorem fails_outOfRange (k : Kind) (digits : String) : Fails (outOfRange digits : Parser Forest α) [k] := by
  intro ts hts u rest _
  obtain ⟨t, rfl, rfl⟩ := List.map_eq_singleton_iff.mp hts
  exact ⟨.unexpected .integerInRange (.digits digits) t.loc, rfl, rfl⟩

theorem fails_primary (h : TooLarge k) (fuel : Nat) : Fails (primary (fuel + 1)) [k] := by
  refine (reads_current (· = k)).fails (fun t ht => ?_) fun _ => rfl
  rcases h with ⟨n, rfl, hn⟩ | ⟨text, rfl⟩
  · simp only [ht, if_neg (Nat.not_lt.mpr hn)]
    exact fails_outOfRange _ _
  · simp only [ht]
    exact fails_outOfRange _ _

theorem fails_unary (h : TooLarge k) (fuel : Nat) : Fails (unary (fuel + 3)) [k] := by
  refine (reads_current (· = k)).fails (fun t ht => ?_) fun _ => rfl
  rcases id h with ⟨n, rfl, -⟩ | ⟨text, rfl⟩
  · simp only [ht]
    exact (fails_primary h fuel).bind _
  · simp only [ht]
    exact (fails_primary h fuel).bind _

theorem fails_negated (h : TooLarge k) (hmin : k ≠ .integer 0x8000000000000000) (fuel : Nat) :
    Fails (unary (fuel + 4)) [.mark .minus, k] := by
  refine (reads_current (· = .mark .minus)).fails (fun t ht => ?_) fun _ => rfl
  simp only [ht, Mark.unary?]
  refine (reads_advance (.mark .minus)).bind.fails (fun _ _ => ?_) fun _ => trivial
  refine (reads_at_false _).fails (fun b hb => ?_) fun _ => hmin
  subst hb
  exact (fails_unary h fuel).bind _

/-- A minus before an integer. -/
def signOf (negative : Bool) : List Kind :=
  if negative then [.mark .minus] else []

/-- An integer with its sign. -/
def signed (negative : Bool) (n : Nat) : Int :=
  if negative then -n else n

variable {negative : Bool} {n : Nat} {k : Kind}

theorem fails_literal (hk : Holds n k) (hn : ¬(-2 ^ 63 ≤ signed negative n ∧ signed negative n < 2 ^ 63)) (fuel : Nat) :
    Fails (expression (fuel + 5)) (signOf negative ++ [k]) := by
  have hlarge : TooLarge k := by
    cases hk with
    | word => exact .inl ⟨n, rfl, by cases negative <;> simp only [signed] at hn <;> simp at hn <;> omega⟩
    | oversized text => exact .inr ⟨text, rfl⟩
  cases negative with
  | false => exact (fails_unary hlarge (fuel + 1)).bind _
  | true =>
    refine (fails_negated hlarge ?_ fuel).bind _
    rintro rfl
    cases hk
    simp [signed] at hn

/-- An integer is read with its sign. -/
theorem reads_literal (hk : Holds n k) (hn : -2 ^ 63 ≤ signed negative n ∧ signed negative n < 2 ^ 63) (fuel : Nat) :
    Reads (expression (fuel + 17)) (signOf negative ++ [k]) (· = .mark .semicolon)
      fun e => e.form = .integer (Int64.ofInt (signed negative n)) := by
  have hword : k = .integer n := by
    cases hk with
    | word => rfl
    | oversized text h => 
      exfalso
      have : (2:Int)^64 ≤ n := by exact_mod_cast h
      cases negative <;> simp [signed] at hn <;> omega
  subst hword
  have hunary : ReadsUnary (signOf negative ++ [.integer n]) fun e => e.form = .integer (Int64.ofInt (signed negative n)) := by
    have hmagnitude : n < 0x8000000000000000 → ReadsUnary [.integer n] fun e => e.form = .integer (Int64.ofNat n) := fun hlt =>
      (readsSuffixed_of_primary (reads_integer hlt fun _ => rfl)).unary ⟨_, _, rfl, by simpa [Kind.opensOperand] using hlt⟩
    cases negative with
    | false => exact hmagnitude (by simp [signed] at hn; omega)
    | true =>
      by_cases hmin : n = 0x8000000000000000
      · subst hmin
        exact readsUnary_minValue fun _ => rfl
      · have hlt : n < 0x8000000000000000 := by simp [signed] at hn; omega
        refine (hmagnitude hlt).prefixed .unaryMinus rfl ⟨_, _, rfl, by simpa [Kind.opens, Kind.opensOperand] using hlt⟩ fun loc e he => ?_
        obtain ⟨loc', form⟩ := e
        obtain rfl : form = .integer (Int64.ofNat n) := he
        refine reads_negated_integer ?_
        show Form.integer (-Int64.ofNat n) = .integer (Int64.ofInt (-n))
        rw [Int64.ofInt_neg]
        rfl
  have hlength : 8 * (signOf negative ++ [Kind.integer n]).length + 1 ≤ fuel + 17 := by
    cases negative <;> simp [signOf]
  obtain ⟨fuel', hneed, hgoes⟩ := hunary.expr (by simp) 0 1 (fuel + 17) hlength
  obtain ⟨fuel', rfl⟩ : ∃ f, fuel' = f + 1 := ⟨fuel' - 1, by omega⟩
  refine hgoes.last (fun e he => (reads_operators_nil fuel' 0 e).mono (fun _ h => h ▸ he) ?_) ?_
  · rintro _ rfl
    exact stops_of_power rfl rfl 0
  · rintro _ rfl
    rfl

end Parser

/-! ## Functions -/

/-- Where the parts of a function stand that returns something, and how the type of its result is written. -/
structure Places where
  item : Loc
  block : Loc
  statement : Loc
  returns : TypeRef

/-- The function, of no parameters, that returns something. -/
def Places.function (p : Places) (returned : Node) : Node :=
  ⟨p.item, .function ⟨p.item, .prototype "f" p.returns [] false⟩ (some ⟨p.block, .block [⟨p.statement, .ret (some returned)⟩]⟩) false⟩

/-- The tokens of the function before what it returns. -/
def Kind.opening (type : Primitive) : List Kind :=
  [.keyword .defKw, .ident "f", .mark .lParen, .mark .rParen, .mark .colon, .ident type.name, .mark .lBrace, .keyword .returnKw]

namespace Parser

theorem make_eq_pure (loc : Loc) (form : Form Node) : (make loc form : Parser Forest Node) = pure ⟨loc, form⟩ :=
  rfl

/-- The rest of a return statement. -/
def returned (fuel : Nat) (loc : Loc) : Parser Forest Node := do
  let e ← expression fuel
  let _ ← expect (.mark .semicolon)
  make loc (.ret (some e))

/-- The rest of a block that starts with a return statement. -/
def returnedBlock (fuel : Nat) (locs : Loc × Loc) : Parser Forest Node := do
  let stmt ← returned fuel locs.2
  let stmts ← statements (fuel + 1)
  let _ ← expect (.mark .rBrace)
  make locs.1 (.block (stmt :: stmts))

/-- The rest of a source that starts with a function that returns something. -/
def returnedItems (fuel count : Nat) (p : Places) : Parser Forest (List Node) := do
  let body ← returnedBlock fuel (p.block, p.statement)
  let f ← make p.item (.function ⟨p.item, .prototype "f" p.returns [] false⟩ (some body) false)
  return f :: (← itemList (fuel + 3) count)

theorem goes_statement (fuel : Nat) :
    Goes (statement (fuel + 1)) [.keyword .returnKw] (· ≠ .mark .semicolon) (fun _ => True) (returned fuel) := by
  refine goes_current fun t ht => ?_
  simp only [ht]
  refine goes_expect fun t => ?_
  simp only [absentAt, bind_assoc]
  refine goes_at_false (fun _ hk => hk) ?_
  simp only [Bool.false_eq_true, if_false, bind_assoc, pure_bind]
  exact goes_self (returned fuel) trivial

theorem goes_block (fuel : Nat) :
    Goes (block (fuel + 3)) [.mark .lBrace, .keyword .returnKw] (· ≠ .mark .semicolon) (fun _ => True) (returnedBlock fuel) := by
  refine goes_expect fun t => ?_
  rw [statements]
  simp only [bind_assoc]
  refine goes_at_false (by simp) ?_
  refine goes_at_false (by simp) ?_
  simp only [Bool.or_self, Bool.false_eq_true, if_false, bind_assoc, pure_bind]
  exact ((goes_statement fuel).bind _).last (fun loc _ => goes_self (returnedBlock fuel) (b := (t.loc, loc)) trivial) fun _ h => h

/-- The function is parsed up to what it returns. -/
theorem goes_itemList (type : Primitive) (fuel count : Nat) :
    Goes (itemList (fuel + 3) (count + 1)) (Kind.opening type) (· ≠ .mark .semicolon)
      (fun p => p.returns.name = type.name ∧ p.returns.mutable = false) (returnedItems fuel count) := by
  refine goes_at_false (by simp [Kind.opening]) ?_
  simp only [Bool.false_eq_true, if_false, item, bind_assoc]
  refine goes_current fun t ht => ?_
  simp only [ht, function, bind_assoc]
  refine goes_here fun loc => ?_
  refine goes_consume_false (by simp) ?_
  refine goes_expect fun _ => ?_
  refine (reads_identifier _ "f").then (fun name hname => ?_) fun _ _ => trivial
  subst hname
  refine goes_expect fun _ => ?_
  have hparams : Reads (parameters (fuel + 3)) [] (· = .mark .rParen) (· = ([] : List Node)) := by
    refine goes_at_true (fun _ hk => hk) ?_
    exact (reads_at_false .endOfFile).peek (fun b _ => reads_pure rfl) fun _ hk => by simp [hk]
  refine hparams.peek (fun params hparams => ?_) fun _ _ => rfl
  subst hparams
  refine goes_expect fun _ => ?_
  refine (reads_annotated (some ⟨type.name, false, .start⟩)).then (fun returns hreturns => ?_) fun k _ => by simp
  obtain ⟨returns, rfl, hbare⟩ := Option.map_eq_some_iff.mp hreturns
  have hplain : returns.name = type.name ∧ returns.mutable = false := by
    obtain ⟨name, mutable, l⟩ := returns
    simpa [TypeRef.bare] using hbare
  simp only [make_eq_pure, pure_bind, bind_assoc]
  refine goes_consume_false (by simp) ?_
  simp only [Bool.false_eq_true, if_false, bind_assoc, pure_bind]
  refine ((goes_block fuel).bind _).last (fun locs _ => ?_) fun _ h => h
  exact goes_self (returnedItems fuel count) (b := ⟨loc, locs.1, locs.2, returns⟩) hplain

variable {e : List Kind} {Q : Node → Prop} {fuel : Nat}

/-- What is returned ends with the function, and the source with it. -/
theorem reads_returnedItems (h : Reads (expression fuel) e (· = .mark .semicolon) Q) (count : Nat) (p : Places) :
    Reads (returnedItems fuel (count + 1) p) (e ++ [.mark .semicolon, .mark .rBrace]) (· = .endOfFile)
      fun items => ∃ n, Q n ∧ items = [p.function n] := by
  simp only [returnedItems, returnedBlock, returned, make_eq_pure, bind_assoc, pure_bind]
  have hstmts : Reads (statements (fuel + 1)) [] (· = .mark .rBrace) (· = ([] : List Node)) := by
    refine goes_at_true (fun _ hk => hk) ?_
    exact (reads_at_false .endOfFile).peek (fun b _ => reads_pure rfl) fun _ hk => by simp [hk]
  have hitems : Reads (itemList (fuel + 3) (count + 1)) [] (· = .endOfFile) (· = ([] : List Node)) := by
    refine goes_at_true (fun _ hk => hk) ?_
    exact reads_pure rfl
  refine h.then (fun n hn => ?_) fun _ _ => rfl
  refine goes_expect fun _ => ?_
  refine hstmts.peek (fun stmts hstmts => ?_) fun _ _ => rfl
  subst hstmts
  refine goes_expect fun _ => ?_
  refine hitems.peek (fun items hitems => ?_) fun _ hk => hk
  subst hitems
  exact reads_pure ⟨n, hn, rfl⟩

theorem fails_returnedItems (h : Fails (expression fuel) e) (count : Nat) (p : Places) : Fails (returnedItems fuel count p) e := by
  simp only [returnedItems, returnedBlock, returned, bind_assoc]
  exact h.bind _

/-- The function is parsed with what it returns. -/
theorem reads_source (type : Primitive) (h : Reads (expression fuel) e (· = .mark .semicolon) Q)
    (he : ∀ more k, (e ++ more).headD k ≠ .mark .semicolon) (count : Nat) :
    Reads (itemList (fuel + 3) (count + 2)) (Kind.opening type ++ (e ++ [.mark .semicolon, .mark .rBrace])) (· = .endOfFile)
      fun items => ∃ (p : Places) (n : Node), p.returns.name = type.name ∧ p.returns.mutable = false ∧ Q n ∧ items = [p.function n] := by
  refine (goes_itemList type fuel (count + 1)).trans (fun p hp => ?_) fun k _ => he _ k
  refine (reads_returnedItems h count p).mono (fun items hitems => ?_) fun _ hk => hk
  obtain ⟨n, hn, rfl⟩ := hitems
  exact ⟨p, n, hp.1, hp.2, hn, rfl⟩

theorem fails_source (type : Primitive) (h : Fails (expression fuel) e) (he : ∀ more k, (e ++ more).headD k ≠ .mark .semicolon)
    (count : Nat) : Fails (itemList (fuel + 3) (count + 1)) (Kind.opening type ++ e) :=
  (goes_itemList type fuel count).fails (fun p _ => fails_returnedItems h count p) fun k => by simpa using he [] k

end Parser

/-! ## Sources -/

namespace SourceFile

/-- A source with one function, which returns what is written. -/
def returning (path : String) (type : Primitive) (written : List Char) : SourceFile where
  path
  contents := "def f(): " ++ type.name ++ " \x7b return " ++ String.ofList written ++ "; \x7d"

/-- A text behind a minus, or without one. -/
def signedText (negative : Bool) (text : List Char) : List Char :=
  if negative then '-' :: text else text

variable {path : String} {type : Primitive} {text : List Char} {n : Nat} {negative : Bool}

theorem tokens_opening (htype : type.isIntegral = true) (rest : List Char) :
    ∃ loc, (tokens .start 0 ("def f(): ".toList ++ (type.name.toList ++ (" \x7b return ".toList ++ rest)))).map (·.kind) =
      Kind.opening type ++ (tokens loc 0 rest).map (·.kind) := by
  refine ⟨⟨1, 20 + type.name.length⟩, ?_⟩
  cases type with
  | i8 | i16 | i32 | i64 | int | byte => rfl
  | _ => cases htype

theorem tokens_minus {c : Char} (hc : c.isDigit = true) (loc : Loc) (rest : List Char) :
    tokens loc 0 ('-' :: c :: rest) = ⟨.mark .minus, loc⟩ :: tokens (loc.after '-') 0 (c :: rest) := by
  have hpair : Mark.ofPair? '-' c = none := by
    have hne : c ≠ '=' := by
      rintro rfl
      cases hc
    unfold Mark.ofPair?
    split <;> simp_all
  have hgap : gap? '-' (c :: rest) = none := rfl
  have hlexeme : lexeme '-' (c :: rest) = (.mark .minus, 0) := by
    show operator '-' (c :: rest) = _
    simp [operator, hpair, Mark.ofChar?]
  rw [tokens, hgap]
  simp only [hlexeme]

theorem tokens_numeral (h : Numeral text n) : ∃ k, Holds n k ∧ ∀ loc,
    (tokens loc 0 (text ++ "; \x7d".toList)).map (·.kind) = [k, .mark .semicolon, .mark .rBrace, .endOfFile] := by
  obtain ⟨c, cs, k, rfl, -, hk, hgap, hlexeme⟩ := lexeme_numeral h [' ', '\x7d']
  refine ⟨k, hk, fun loc => ?_⟩
  show (tokens loc 0 (c :: (cs ++ [';', ' ', '\x7d']))).map (·.kind) = _
  rw [tokens_of_lexeme hgap hlexeme]
  rfl

/-- The tokens of the source are those of the function around the numeral. -/
theorem scan_returning (path : String) (negative : Bool) (htype : type.isIntegral = true) (h : Numeral text n) : ∃ k, Holds n k ∧
    (Token.scan (returning path type (signedText negative text)).contents).map (·.kind) =
      Kind.opening type ++ (Parser.signOf negative ++ [k]) ++ [.mark .semicolon, .mark .rBrace, .endOfFile] := by
  obtain ⟨k, hk, htail⟩ := tokens_numeral h
  obtain ⟨loc, hopening⟩ := tokens_opening htype (signedText negative text ++ "; \x7d".toList)
  refine ⟨k, hk, ?_⟩
  have hcontents : (returning path type (signedText negative text)).contents.toList =
      "def f(): ".toList ++ (type.name.toList ++ (" \x7b return ".toList ++ (signedText negative text ++ "; \x7d".toList))) := by
    simp [returning, String.toList_append]
  rw [Token.scan, hcontents, hopening, List.append_assoc]
  congr 1
  cases negative with
  | false => exact htail loc
  | true =>
    obtain ⟨c, cs, -, rfl, hc, -⟩ := lexeme_numeral h []
    show (tokens loc 0 ('-' :: c :: (cs ++ "; \x7d".toList))).map (·.kind) = _
    rw [tokens_minus hc, List.map_cons]
    exact congrArg _ (htail _)

/-- The source is parsed to the function with an integer, if the number is one, and else there is a fault at the number. -/
theorem parse_returning (path : String) (negative : Bool) (htype : type.isIntegral = true) (h : Numeral text n) :
    let result := Node.parse (returning path type (signedText negative text)).contents
    let v := Parser.signed negative n
    if -2 ^ 63 ≤ v ∧ v < 2 ^ 63 then
      ∃ (p : Places) (loc : Loc), p.returns.name = type.name ∧ p.returns.mutable = false ∧
        result = .ok ⟨.start, .block [p.function ⟨loc, .integer (Int64.ofInt v)⟩]⟩
    else ∃ f, f.tag = "SyntaxError" ∧ result = .error f := by
  intro result v
  obtain ⟨k, hk, hscan⟩ := scan_returning path negative htype h
  -- There are enough tokens to give the parser fuel for the function and for what it returns.
  obtain ⟨fuel, hfuel⟩ : ∃ fuel, 8 * ((Token.scan (returning path type (signedText negative text)).contents).length + 1) = fuel + 20 := by
    have hlength := congrArg List.length hscan
    simp only [List.length_map, List.length_append, Kind.opening, List.length_cons, List.length_nil] at hlength
    exact Nat.exists_eq_add_of_le' (by omega)
  have hresult : result = ((Parser.itemList (fuel + 17 + 3) (fuel + 18 + 2) : Parser Forest (List Node))
      ⟨Token.scan (returning path type (signedText negative text)).contents, ()⟩).map fun r => ⟨.start, .block r.1⟩ := by
    have heq := Node.ofTokens_eq (Token.scan (returning path type (signedText negative text)).contents)
    rwa [hfuel] at heq
  have hnext : ∀ more k', (Parser.signOf negative ++ [k] ++ more).headD k' ≠ .mark .semicolon := by
    intro more k'
    cases negative <;> cases hk <;> simp [Parser.signOf]
  split
  next hv =>
    have hread := Parser.reads_source type (Parser.reads_literal hk hv fuel) hnext (fuel + 18)
    rw [show Kind.opening type ++ (Parser.signOf negative ++ [k]) ++ [.mark .semicolon, .mark .rBrace, .endOfFile] =
      (Kind.opening type ++ (Parser.signOf negative ++ [k] ++ [.mark .semicolon, .mark .rBrace])) ++ [.endOfFile] by simp] at hscan
    obtain ⟨ts, ends, hts, hrow, hends⟩ := List.map_eq_append_iff.mp hscan
    obtain ⟨u, rfl, hu⟩ := List.map_eq_singleton_iff.mp hends
    obtain ⟨items, ⟨p, ⟨loc, form⟩, hname, hmutable, hform, rfl⟩, hrun⟩ := hread ts hrow u [] hu
    obtain rfl : form = .integer (Int64.ofInt v) := hform
    refine ⟨p, loc, hname, hmutable, ?_⟩
    rw [hresult, hts, hrun]
    rfl
  next hv =>
    have hfail := Parser.fails_source type (Parser.fails_literal hk hv (fuel + 12)) hnext (fuel + 19)
    obtain ⟨ts, ends, hts, hrow, hends⟩ := List.map_eq_append_iff.mp hscan
    obtain ⟨u, rest, rfl, hu, -⟩ := List.map_eq_cons_iff.mp hends
    obtain ⟨f, hf, hrun⟩ := hfail ts hrow u rest trivial
    refine ⟨f, hf, ?_⟩
    rw [hresult, hts, hrun]
    rfl

end SourceFile

end Ember
