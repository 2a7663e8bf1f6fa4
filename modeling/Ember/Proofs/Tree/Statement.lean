import Ember.Proofs.Tree.Operand

/-!
# Statements come back

The row of a statement is read to the statement that it was printed from (`statementComesBack`), by induction over the statement. A
conditional without a second arm is read up to a token that is not `else`, and no statement starts with one.
-/

namespace Ember

namespace Node

/-- A tree that stands alone has no parentheses around it. -/
theorem print_zero (n : Node) : n.print 0 = n.row := by
  rw [print_eq, if_neg (Nat.not_lt_zero _)]

/-- The row of a part that may be missing. -/
def printOptional (value : Option Node) : List Kind :=
  Form.optional (value.map fun n => (n, n.print))

/-- The row of a statement, ended by a semicolon if it is a definition. -/
def printEnded (n : Node) : List Kind :=
  Form.ended (n, n.print)

/-- The row of a definition. -/
def printDefinition (b : Binder) (init : Option Node) : List Kind :=
  Form.definition b (init.map fun n => (n, n.print))

theorem IsValue.reads {n : Node} (h : n.IsValue) {fuel : Nat} (hfuel : 8 * (n.print 0).length + 1 ≤ fuel) :
    Parser.Reads (Parser.expression fuel) (n.print 0) (Kind.Stops 0) (Like · n) :=
  Parser.reads_value h.expression.comesBack h.plain hfuel

theorem IsValue.head {n : Node} (h : n.IsValue) : ∃ k ks, n.print 0 = k :: ks ∧ k.opens = true :=
  h.expression.comesBack.head 0

end Node

theorem any_mutable_of_bare {type type' : Option TypeRef} (h : type.map TypeRef.bare = type'.map TypeRef.bare) :
    type.any (·.mutable) = type'.any (·.mutable) := by
  have := congrArg (·.any (·.mutable)) h
  rwa [Option.any_map, Option.any_map] at this

/-- The head of a definition as it is read, but for the location of the type. -/
theorem Binder.Declared.bare_eq {b : Binder} (h : b.Declared) {type : Option TypeRef}
    (htype : type.map TypeRef.bare = b.type.map TypeRef.bare) {mutable : Bool} (hmutable : mutable = b.mutable) :
    Binder.bare { name := b.name, type, inferred := type.isNone, mutable } = b.bare := by
  have hnone : type.isNone = b.inferred := by
    have := congrArg Option.isNone htype
    rw [h.inferred]
    simpa using this
  rw [Binder.bare, hmutable, hnone, htype]
  rfl

namespace Parser

open Node (Like like_mk IsValue IsSimple IsStatement printOptional printEnded printDefinition)

variable {follow : Kind → Prop}

/-! ## Parts that may be missing -/

variable {value init : Option Node} {k : Kind} {fuel : Nat} {b : Binder} {n cond body : Node} {loc : Loc}

/-- A part that may be missing, before a token that the part cannot start with. -/
theorem reads_absentAt {part : Parser Forest Node}
    (hpart : ∀ n, value = some n → Reads part (n.print 0) (· = k) (Like · n) ∧ ∃ k' ks, n.print 0 = k' :: ks ∧ k' ≠ k) :
    Reads (absentAt k part) (printOptional value) (· = k) fun v => v.map Node.bare = value.map Node.bare := by
  cases value with
  | none =>
    refine goes_at_true (fun _ hk => hk) ?_
    exact reads_pure rfl
  | some n =>
    obtain ⟨hread, k', ks, hrow, hne⟩ := hpart n rfl
    refine goes_at_false (fun u _ => ?_) ?_
    · show (n.print 0).headD u ≠ k
      rw [hrow]
      exact hne
    · exact hread.last (fun m hm => reads_pure (congrArg some hm)) fun _ hk => hk

/-- A value that may be missing. -/
theorem reads_optionalValue (hvalue : ∀ n, value = some n → n.IsValue) (hs : k.isSuffix = false) (hp : k.power? = none)
    (ho : k.opens = false) (hfuel : 8 * (printOptional value).length + 1 ≤ fuel) :
    Reads (absentAt k (expression fuel)) (printOptional value) (· = k) fun v => v.map Node.bare = value.map Node.bare := by
  refine reads_absentAt fun n hn => ?_
  subst hn
  obtain ⟨k', ks, hrow, hk'⟩ := (hvalue n rfl).head
  refine ⟨((hvalue n rfl).reads hfuel).weaken ?_, k', ks, hrow, Kind.ne_of_opens hk' ho⟩
  rintro u rfl
  exact stops_of_power hs hp 0

/-! ## Definitions -/

/-- The definition of a variable. -/
theorem reads_definition (hb : b.Declared) (hinit : ∀ n, init = some n → n.IsValue) (global : Bool)
    (hfuel : 8 * (printDefinition b init).length ≤ fuel) (loc : Loc) :
    Reads (definition fuel global) (printDefinition b init) (· = .mark .semicolon)
      (Like · ⟨loc, if global then .defineGlobal b init else .define b init⟩) := by
  refine (reads_advance _).step fun keyword hkeyword => ?_
  refine goes_consume_false (fun _ _ => by simp) ?_
  refine (reads_identifier _ b.name).step fun name hname => ?_
  subst hname
  have hmutable : ∀ {type : Option TypeRef}, type.map TypeRef.bare = b.type.map TypeRef.bare →
      (decide (keyword.kind = .keyword .varKw) || false || type.any (·.mutable)) = b.mutable := by
    intro type htype
    have hvar : decide (keyword.kind = .keyword .varKw) = b.mutable := by
      rw [hkeyword]
      cases b.mutable <;> rfl
    rw [hvar, any_mutable_of_bare htype, Bool.or_false, Bool.or_eq_left_iff_imp]
    exact hb.mutable
  have hlike : ∀ {b' : Binder} {value : Option Node}, b'.bare = b.bare → value.map Node.bare = init.map Node.bare →
      Like ⟨keyword.loc, if global then .defineGlobal b' value else .define b' value⟩
        ⟨loc, if global then .defineGlobal b init else .define b init⟩ := by
    intro b' value hbare hvalue
    cases global with
    | true | false => exact like_mk (by simp [Form.map, Form.bare, hbare, hvalue])
  cases init with
  | none =>
    refine (reads_annotated b.type).then (fun type htype => ?_) fun k hk => show k ≠ _ by rw [hk]; simp
    refine goes_consume_false (fun k hk => show k ≠ _ by rw [hk]; simp) ?_
    have hnone : Reads (pure none : Parser Forest (Option Node)) [] (fun _ => True) (· = none) := reads_pure rfl
    refine hnone.peek (fun value hvalue => reads_make (hlike (hb.bare_eq htype (hmutable htype)) (congrArg _ hvalue))) fun _ _ => trivial
  | some n =>
    refine (reads_annotated b.type).then (fun type htype => ?_) fun k hk => by simp
    refine goes_consume_true ?_
    have hfuel : 8 * (n.print 0).length + 1 ≤ fuel := by
      simp only [printDefinition, Form.definition, List.length_cons, List.length_append, Option.map_some] at hfuel
      omega
    have hn : Reads (some <$> expression fuel) (n.print 0) (Kind.Stops 0) fun v => v.map Node.bare = some n.bare :=
      reads_map ((hinit n rfl).reads hfuel) fun m hm => congrArg some hm
    refine hn.last (fun value hvalue => reads_make (hlike (hb.bare_eq htype (hmutable htype)) hvalue)) ?_
    rintro k rfl
    exact stops_of_power rfl rfl 0

/-! ## Statements -/

/-- The row of a statement comes back as the statement; that of a block and that of a conditional also where only these may stand. -/
structure StatementComesBack (n : Node) : Prop where
  head : ∃ k ks, printEnded n = k :: ks ∧ k ≠ .mark .rBrace ∧ k ≠ .endOfFile ∧ k ≠ .keyword .elseKw
  statement : ∀ fuel, 8 * (printEnded n).length + 2 ≤ fuel →
    Reads (Parser.statement fuel) (printEnded n) (· ≠ .keyword .elseKw) (Like · n)
  block : n.isBlock = true → ∀ fuel, 8 * (n.print 0).length + 1 ≤ fuel →
    Reads (Parser.block fuel) (n.print 0) (fun _ => True) (Like · n)
  branch : n.isBranch = true → ∀ fuel, 8 * (n.print 0).length + 1 ≤ fuel →
    Reads (Parser.branch fuel) (n.print 0) (· ≠ .keyword .elseKw) (Like · n)

theorem printEnded_of_plain (h : n.definesName = false) : printEnded n = n.row := by
  rw [← Node.print_zero]
  show n.print 0 ++ (if n.definesName then _ else _) = _
  rw [h, if_neg Bool.false_ne_true, List.append_nil]

/-- A statement of which the first token tells what it is. -/
theorem statementComesBack_of_row {ks : List Kind} (hrow : printEnded n = k :: ks)
    (hk : k ≠ .mark .rBrace ∧ k ≠ .endOfFile ∧ k ≠ .keyword .elseKw) (hblock : n.isBlock = false) (hbranch : n.isBranch = false)
    (h : ∀ fuel, 8 * (k :: ks).length + 1 ≤ fuel → Reads (Parser.statement (fuel + 1)) (k :: ks) (· ≠ .keyword .elseKw) (Like · n)) :
    StatementComesBack n where
  head := ⟨k, ks, hrow, hk⟩
  statement := by
    intro fuel hfuel
    obtain _ | fuel := fuel
    · omega
    rw [hrow] at hfuel ⊢
    exact h fuel (by omega)
  block := fun h => by rw [hblock] at h; cases h
  branch := fun h => by rw [hbranch] at h; cases h

theorem reads_definitionStatement (hb : b.Declared) (hinit : ∀ n, init = some n → n.IsValue) (global : Bool)
    (hfuel : 8 * (printDefinition b init).length ≤ fuel) (loc : Loc) :
    Reads (definitionStatement fuel global) (printDefinition b init ++ [.mark .semicolon]) follow
      (Like · ⟨loc, if global then .defineGlobal b init else .define b init⟩) := by
  refine (reads_definition hb hinit global hfuel loc).then (fun n hn => ?_) fun _ _ => rfl
  exact goes_expect fun _ => reads_pure hn

/-- A definition starts with its keyword. -/
theorem printDefinition_head (b : Binder) (init : Option Node) :
    ∃ k ks, printDefinition b init = k :: ks ∧ (k = .keyword .letKw ∨ k = .keyword .varKw) := by
  refine ⟨_, _, rfl, ?_⟩
  cases b.mutable with
  | true => exact .inr rfl
  | false => exact .inl rfl

theorem statementComesBack_define (hb : b.Declared) (hinit : ∀ n, init = some n → n.IsValue) :
    StatementComesBack ⟨loc, .define b init⟩ := by
  obtain ⟨k, ks, hprint, hk⟩ := printDefinition_head b init
  have hrow : printEnded ⟨loc, .define b init⟩ = printDefinition b init ++ [.mark .semicolon] := by
    show Node.print ⟨loc, .define b init⟩ 0 ++ [_] = _
    rw [Node.print_zero]
    rfl
  have hrow' : printEnded ⟨loc, .define b init⟩ = k :: (ks ++ [.mark .semicolon]) := by rw [hrow, hprint]; rfl
  refine statementComesBack_of_row hrow' (by obtain rfl | rfl := hk <;> simp) rfl rfl fun fuel hfuel => ?_
  rw [← hrow', hrow, List.length_append] at hfuel
  have hdefinition : Reads (definitionStatement fuel false) (k :: (ks ++ [.mark .semicolon])) (· ≠ .keyword .elseKw)
      (Like · ⟨loc, .define b init⟩) := by
    rw [← hrow', hrow]
    exact reads_definitionStatement hb hinit false (by omega) loc
  refine (reads_current fun k => k = .keyword .letKw ∨ k = .keyword .varKw).peek (fun t ht => ?_) fun _ _ => hk
  obtain ht | ht := ht
  · simp only [ht]
    exact hdefinition
  · simp only [ht]
    exact hdefinition

theorem statementComesBack_expression (hn : n.IsValue) : StatementComesBack ⟨loc, .expression n⟩ := by
  obtain ⟨k, ks, hprint, hk⟩ := hn.head
  have hrow : printEnded ⟨loc, .expression n⟩ = n.print 0 ++ [.mark .semicolon] := printEnded_of_plain rfl
  have hrow' : printEnded ⟨loc, .expression n⟩ = k :: (ks ++ [.mark .semicolon]) := by rw [hrow, hprint]; rfl
  refine statementComesBack_of_row hrow' ⟨Kind.ne_of_opens hk rfl, Kind.ne_of_opens hk rfl, Kind.ne_of_opens hk rfl⟩ rfl rfl
    fun fuel hfuel => ?_
  rw [← hrow', hrow] at hfuel ⊢
  refine (reads_current (·.opens = true)).peek (fun t ht => ?_) fun u _ => Kind.opens_headD hn.head _ u
  have hexpr : Reads (do
      let e ← expression fuel
      let _ ← expect (.mark .semicolon)
      make t.loc (.expression e) : Parser Forest Node) (n.print 0 ++ [.mark .semicolon]) (· ≠ .keyword .elseKw) (Like · ⟨loc, .expression n⟩) := by
    refine (hn.reads (by simp only [List.length_append] at hfuel; omega)).then (fun e he => ?_) fun _ _ => stops_of_power rfl rfl 0
    refine goes_expect fun _ => reads_make ?_
    exact like_mk (congrArg Form.expression he)
  split
  all_goals first
    | exact hexpr
    | (rename_i hkind; rw [hkind] at ht; cases ht)

theorem statementComesBack_empty : StatementComesBack ⟨loc, .empty⟩ := by
  refine statementComesBack_of_row (printEnded_of_plain rfl) ⟨by simp, by simp, by simp⟩ rfl rfl fun fuel _ => ?_
  refine goes_current fun t ht => ?_
  simp only [ht]
  exact goes_advance fun _ _ => reads_make rfl

theorem statementComesBack_ret (hvalue : ∀ n, value = some n → n.IsValue) : StatementComesBack ⟨loc, .ret value⟩ := by
  have hrow : printEnded ⟨loc, .ret value⟩ = .keyword .returnKw :: (printOptional value ++ [.mark .semicolon]) := printEnded_of_plain rfl
  refine statementComesBack_of_row hrow ⟨by simp, by simp, by simp⟩ rfl rfl fun fuel hfuel => ?_
  refine goes_current fun t ht => ?_
  simp only [ht]
  refine goes_expect fun _ => ?_
  refine (reads_optionalValue hvalue rfl rfl rfl ?_).then (fun v hv => ?_) fun _ _ => rfl
  · simp only [List.length_cons, List.length_append] at hfuel
    omega
  · exact goes_expect fun _ => reads_make (like_mk (congrArg Form.ret hv))

/-! ### Blocks -/

/-- Statements up to the end of a block. -/
theorem reads_statements {stmts : List Node} (h : ∀ n ∈ stmts, StatementComesBack n) (fuel : Nat)
    (hfuel : 8 * (stmts.flatMap printEnded).length + 3 ≤ fuel) :
    Reads (statements fuel) (stmts.flatMap printEnded) (· = .mark .rBrace) fun l => l.map Node.bare = stmts.map Node.bare := by
  induction stmts generalizing fuel with
  | nil =>
    obtain _ | fuel := fuel
    · omega
    refine goes_at_true (fun _ hk => hk) ?_
    refine (reads_at_false .endOfFile).peek (fun b _ => ?_) fun k hk => show k ≠ .endOfFile by rw [hk]; simp
    rw [Bool.true_or, if_pos rfl]
    exact reads_pure rfl
  | cons n stmts ih =>
    obtain ⟨hn, h⟩ := List.forall_mem_cons.mp h
    obtain ⟨k, ks, hrow, hbrace, hend, _⟩ := hn.head
    obtain _ | fuel := fuel
    · omega
    rw [List.flatMap_cons] at hfuel ⊢
    have hhead : ∀ u : Kind, (printEnded n ++ stmts.flatMap printEnded).headD u = k := fun u => by rw [hrow]; rfl
    have hpos : 0 < (printEnded n).length := by rw [hrow]; exact Nat.succ_pos _
    rw [List.length_append] at hfuel
    refine goes_at_false (fun u _ => by rw [hhead]; exact hbrace) ?_
    refine goes_at_false (fun u _ => by rw [hhead]; exact hend) ?_
    refine (hn.statement fuel (by omega)).then (fun m hm => ?_) ?_
    · refine (ih h fuel (by omega)).last (fun l hl => reads_pure ?_) fun _ hk => hk
      rw [List.map_cons, List.map_cons, hl, show m.bare = n.bare from hm]
    · rintro u rfl
      cases stmts with
      | nil => simp
      | cons n' stmts =>
        obtain ⟨k', ks', hrow', _, _, helse⟩ := (List.forall_mem_cons.mp h).1.head
        rw [List.flatMap_cons, hrow']
        exact helse

theorem statementComesBack_block {stmts : List Node} (h : ∀ n ∈ stmts, StatementComesBack n) : StatementComesBack ⟨loc, .block stmts⟩ := by
  have hprint : Node.print ⟨loc, .block stmts⟩ 0 = .mark .lBrace :: (stmts.flatMap printEnded ++ [.mark .rBrace]) := by
    rw [Node.print_zero, Node.row]
    show _ :: ((stmts.map _).flatMap Form.ended ++ _) = _
    rw [List.flatMap_map]
    rfl
  have hrow : printEnded ⟨loc, .block stmts⟩ = Node.print ⟨loc, .block stmts⟩ 0 := by
    rw [printEnded_of_plain rfl, Node.print_zero]
  have hblock : ∀ fuel, 8 * (Node.print ⟨loc, .block stmts⟩ 0).length + 1 ≤ fuel →
      Reads (block fuel) (Node.print ⟨loc, .block stmts⟩ 0) (fun _ => True) (Like · ⟨loc, .block stmts⟩) := by
    intro fuel hfuel
    rw [hprint] at hfuel ⊢
    obtain _ | fuel := fuel
    · omega
    simp only [List.length_cons, List.length_append] at hfuel
    refine goes_expect fun _ => ?_
    refine (reads_statements h fuel (by omega)).then (fun l hl => ?_) fun _ _ => rfl
    exact goes_expect fun _ => reads_make (like_mk (congrArg Form.block hl))
  exact {
    head := ⟨_, _, hrow.trans hprint, by simp, by simp, by simp⟩
    statement := by
      intro fuel hfuel
      rw [hrow] at hfuel ⊢
      obtain _ | fuel := fuel
      · omega
      refine (reads_current (· = .mark .lBrace)).peek (fun t ht => ?_) fun _ _ => by rw [hprint]; rfl
      simp only [ht]
      exact (hblock fuel (by omega)).weaken fun _ _ => trivial
    block := fun _ => hblock
    branch := fun h => by cases h }

/-! ### Conditionals and loops -/

theorem isBlock_head (h : n.isBlock = true) (row : List Kind) (k : Kind) : (n.print 0 ++ row).headD k = .mark .lBrace := by
  obtain ⟨loc, form⟩ := n
  cases form <;> cases h
  rw [Node.print_zero]
  rfl

theorem headD_isBlock (h : n.isBlock = true) (k : Kind) : (n.print 0).headD k = .mark .lBrace := by
  simpa using isBlock_head h [] k

theorem stops_isBlock (h : n.isBlock = true) (k : Kind) : Kind.Stops 0 ((n.print 0).headD k) := by
  rw [headD_isBlock h]
  exact stops_of_power rfl rfl 0

theorem isBranch_head (h : n.isBranch = true) (k : Kind) : (n.print 0).headD k = .keyword .ifKw := by
  obtain ⟨loc, form⟩ := n
  cases form <;> cases h
  rw [Node.print_zero]
  rfl

theorem like_branch {loc' : Loc} {cond' yes yes' : Node} {no no' : Option Node} (hcond : Like cond' cond) (hyes : Like yes' yes)
    (hno : no'.map Node.bare = no.map Node.bare) : Like ⟨loc', .branch cond' yes' no'⟩ ⟨loc, .branch cond yes no⟩ := by
  refine like_mk ?_
  show Form.branch cond'.bare yes'.bare (no'.map Node.bare) = .branch cond.bare yes.bare (no.map Node.bare)
  rw [hcond, hyes, hno]

theorem statementComesBack_branch {yes : Node} {no : Option Node} (hcond : cond.IsValue) (hyes : StatementComesBack yes)
    (hblock : yes.isBlock = true) (hno : ∀ n, no = some n → StatementComesBack n)
    (hnoKind : ∀ n, no = some n → n.isBlock = true ∨ n.isBranch = true) : StatementComesBack ⟨loc, .branch cond yes no⟩ := by
  have hrow : printEnded ⟨loc, .branch cond yes no⟩ = Node.print ⟨loc, .branch cond yes no⟩ 0 := by
    rw [printEnded_of_plain rfl, Node.print_zero]
  have hstop : ∀ row k, Kind.Stops 0 ((yes.print 0 ++ row).headD k) := fun row k => by
    rw [isBlock_head hblock]
    exact stops_of_power rfl rfl 0
  have hbranch : ∀ fuel, 8 * (Node.print ⟨loc, .branch cond yes no⟩ 0).length + 1 ≤ fuel →
      Reads (branch fuel) (Node.print ⟨loc, .branch cond yes no⟩ 0) (· ≠ .keyword .elseKw) (Like · ⟨loc, .branch cond yes no⟩) := by
    intro fuel hfuel
    rw [Node.print_zero] at hfuel ⊢
    obtain _ | fuel := fuel
    · omega
    have hprint : Node.row ⟨loc, .branch cond yes no⟩ =
        .keyword .ifKw :: (cond.print 0 ++ (yes.print 0 ++ no.elim [] fun no => .keyword .elseKw :: no.print 0)) := by
      cases no <;> rfl
    rw [hprint] at hfuel ⊢
    simp only [List.length_cons, List.length_append] at hfuel
    refine goes_expect fun _ => ?_
    refine (hcond.reads (by omega)).then (fun cond' hcond' => ?_) fun k _ => hstop _ k
    refine (hyes.block hblock fuel (by omega)).step fun yes' hyes' => ?_
    cases no with
    | none =>
      refine goes_consume_false (fun _ hk => hk) ?_
      exact reads_make (like_branch hcond' hyes' rfl)
    | some no =>
      simp only [Option.elim, List.length_cons] at hfuel
      refine goes_consume_true ?_
      obtain hkind | hkind := hnoKind no rfl
      · refine goes_at_false (fun k _ => ?_) ?_
        · show (no.print 0).headD k ≠ .keyword .ifKw
          rw [headD_isBlock hkind]
          simp
        · refine ((hno no rfl).block hkind fuel (by omega)).ends fun no' hno' => reads_make ?_
          exact like_branch hcond' hyes' (congrArg some hno')
      · refine goes_at_true (fun k _ => isBranch_head hkind k) ?_
        refine ((hno no rfl).branch hkind fuel (by omega)).last (fun no' hno' => reads_make ?_) fun _ hk => hk
        exact like_branch hcond' hyes' (congrArg some hno')
  exact {
    head := ⟨.keyword .ifKw, _, hrow.trans (Node.print_zero _), by simp, by simp, by simp⟩
    statement := by
      intro fuel hfuel
      rw [hrow] at hfuel ⊢
      obtain _ | fuel := fuel
      · omega
      refine (reads_current (· = .keyword .ifKw)).peek (fun t ht => ?_) fun _ _ => by rw [Node.print_zero]; rfl
      simp only [ht]
      exact hbranch fuel (by omega)
    block := fun h => by cases h
    branch := fun _ => hbranch }

theorem statementComesBack_whileLoop (hcond : cond.IsValue) (hbody : StatementComesBack body) (hblock : body.isBlock = true) :
    StatementComesBack ⟨loc, .whileLoop cond body⟩ := by
  have hrow : printEnded ⟨loc, .whileLoop cond body⟩ = .keyword .whileKw :: (cond.print 0 ++ body.print 0) := printEnded_of_plain rfl
  refine statementComesBack_of_row hrow ⟨by simp, by simp, by simp⟩ rfl rfl fun fuel hfuel => ?_
  obtain _ | fuel := fuel
  · omega
  simp only [List.length_cons, List.length_append] at hfuel
  refine goes_current fun t ht => ?_
  simp only [ht]
  refine goes_expect fun _ => ?_
  refine (hcond.reads (by omega)).then (fun cond' hcond' => ?_) fun k _ => ?_
  · refine (hbody.block hblock fuel (by omega)).ends fun body' hbody' => reads_make ?_
    exact like_mk (congrArg₂ Form.whileLoop hcond' hbody')
  · exact stops_isBlock hblock k

/-- Whether two tokens start a loop over the members of something. -/
def startsEach : Kind → Kind → Bool
  | .ident _, .keyword .inKw => true
  | _, _ => false

theorem atForEach_eq (t t' : Token) (rest : List Token) :
    (atForEach : Parser Forest Bool) ⟨t :: t' :: rest, ()⟩ = .ok (startsEach t.kind t'.kind, ⟨t :: t' :: rest, ()⟩) := by
  obtain ⟨k, loc⟩ := t
  obtain ⟨k', loc'⟩ := t'
  cases k with
  | ident name =>
    cases k' with
    | keyword word => cases word <;> rfl
    | _ => rfl
  | _ => rfl

/-- Two tokens tell which loop it is. -/
theorem goes_atForEach {α γ : Type} {next : Bool → Parser Forest α} {k' : Kind} {row : List Kind} {Q : γ → Prop} {q : γ → Parser Forest α}
    (h : Goes (next (startsEach k k')) (k :: k' :: row) follow Q q) : Goes (atForEach >>= next) (k :: k' :: row) follow Q q := by
  intro ts hts u rest hu
  obtain ⟨t, ts₁, rfl, rfl, hts₁⟩ := List.map_eq_cons_iff.mp hts
  obtain ⟨t', ts₂, rfl, rfl, _⟩ := List.map_eq_cons_iff.mp hts₁
  obtain ⟨c, hc, hnext⟩ := h _ hts u rest hu
  refine ⟨c, hc, ?_⟩
  rw [← hnext]
  show (atForEach ⟨t :: t' :: (ts₂ ++ u :: rest), ()⟩).bind (fun (b, r) => next b r) = _
  rw [atForEach_eq]
  rfl

theorem reads_made {form : Form Node} (loc' : Loc) : Reads (make loc form) [] (fun _ => True) (Like · ⟨loc', form⟩) :=
  reads_make (like_mk rfl)

theorem statementComesBack_forEach {loc' : Loc} {name : String} {iteratee : Node} (hiteratee : iteratee.IsValue)
    (hbody : StatementComesBack body) (hblock : body.isBlock = true) :
    StatementComesBack ⟨loc, .forEach ⟨loc', .define { name, type := none, inferred := true, mutable := false } none⟩ iteratee body⟩ := by
  have hrow : printEnded ⟨loc, .forEach ⟨loc', .define { name, type := none, inferred := true, mutable := false } none⟩ iteratee body⟩ =
    .keyword .forKw :: .ident name :: .keyword .inKw :: (iteratee.print 0 ++ body.print 0) := printEnded_of_plain rfl
  refine statementComesBack_of_row hrow ⟨by simp, by simp, by simp⟩ rfl rfl fun fuel hfuel => ?_
  obtain _ | fuel := fuel
  · omega
  simp only [List.length_cons, List.length_append] at hfuel
  refine goes_current fun t ht => ?_
  simp only [ht]
  refine goes_expect fun _ => ?_
  refine goes_atForEach ?_
  refine goes_here fun _ => ?_
  refine (reads_identifier _ name).step fun name' hname => ?_
  subst hname
  refine goes_expect fun _ => ?_
  refine (reads_made loc').peek (fun iterator hiterator => ?_) fun _ _ => trivial
  refine (hiteratee.reads (by omega)).then (fun iteratee' hiteratee' => ?_) fun k _ => ?_
  · refine (hbody.block hblock fuel (by omega)).ends fun body' hbody' => reads_make ?_
    refine like_mk ?_
    show Form.forEach iterator.bare iteratee'.bare body'.bare = .forEach (Node.bare _) iteratee.bare body.bare
    rw [hiterator, hiteratee', hbody']
  · exact stops_isBlock hblock k

/-- The first part of the header of a loop. -/
theorem reads_loopInit (h : n.IsSimple) (hfuel : 8 * (n.print 0).length + 1 ≤ fuel) :
    Reads (loopInit fuel) (n.print 0) (· = .mark .semicolon) (Like · n) := by
  cases h with
  | value h =>
    have hexpr : Reads (expression fuel) (n.print 0) (· = .mark .semicolon) (Like · n) :=
      (h.reads hfuel).weaken (by rintro k rfl; exact stops_of_power rfl rfl 0)
    refine (reads_current (·.opens = true)).peek (fun t ht => ?_) fun k _ => ?_
    · split
      · rename_i hkind
        rw [hkind] at ht
        cases ht
      · rename_i hkind
        rw [hkind] at ht
        cases ht
      · exact hexpr
    · have := Kind.opens_headD h.head [] k
      rwa [List.append_nil] at this
  | @define loc b init hb hinit =>
    have hrow : Node.print ⟨loc, .define b init⟩ 0 = printDefinition b init := Node.print_zero _
    rw [hrow] at hfuel ⊢
    have hdefinition : Reads (definition fuel false) (printDefinition b init) (· = .mark .semicolon) (Like · ⟨loc, .define b init⟩) :=
      reads_definition hb hinit false (by omega) loc
    obtain ⟨k, ks, hprint, hk⟩ := printDefinition_head b init
    refine (reads_current fun k => k = .keyword .letKw ∨ k = .keyword .varKw).peek (fun t ht => ?_) fun _ _ => by rw [hprint]; exact hk
    obtain ht | ht := ht
    · simp only [ht]
      exact hdefinition
    · simp only [ht]
      exact hdefinition

theorem startsEach_eq_false (k : Kind) {k' : Kind} (h : k' ≠ .keyword .inKw) : startsEach k k' = false := by
  unfold startsEach
  split
  · exact absurd rfl h
  · rfl

theorem isSimple_head (h : n.IsSimple) : ∃ k ks, n.print 0 = k :: ks ∧ k ≠ .mark .semicolon ∧ ∀ k' ∈ ks, startsEach k k' = false := by
  cases h with
  | value h =>
    obtain ⟨k, ks, hrow, hk⟩ := h.head
    refine ⟨k, ks, hrow, Kind.ne_of_opens hk rfl, fun k' hk' => startsEach_eq_false k ?_⟩
    exact h.expression.comesBack.plain 0 k' (by rw [hrow]; exact List.mem_cons_of_mem _ hk')
  | @define loc b init =>
    obtain ⟨k, ks, hrow, hk⟩ := printDefinition_head b init
    refine ⟨k, ks, (Node.print_zero _).trans hrow, ?_, fun k' _ => ?_⟩
    · obtain rfl | rfl := hk <;> simp
    · obtain rfl | rfl := hk <;> rfl

/-- The header of a loop with three parts is not taken for that of a loop over members. -/
theorem not_startsEach (hinit : ∀ n, init = some n → n.IsSimple) {rest : List Kind} (hrest : rest ≠ []) :
    ∃ k k' row, printOptional init ++ .mark .semicolon :: rest = k :: k' :: row ∧ startsEach k k' = false := by
  cases init with
  | none =>
    obtain ⟨k', row, rfl⟩ := List.exists_cons_of_ne_nil hrest
    exact ⟨_, _, _, rfl, rfl⟩
  | some n =>
    obtain ⟨k, ks, hrow, _, hks⟩ := isSimple_head (hinit n rfl)
    rw [show printOptional (some n) = k :: ks from hrow]
    cases ks with
    | nil => exact ⟨k, _, _, rfl, startsEach_eq_false k (by simp)⟩
    | cons k' ks => exact ⟨k, k', _, rfl, hks k' List.mem_cons_self⟩

theorem statementComesBack_forLoop {cond step : Option Node} (hinit : ∀ n, init = some n → n.IsSimple)
    (hcond : ∀ n, cond = some n → n.IsValue) (hstep : ∀ n, step = some n → n.IsValue) (hbody : StatementComesBack body)
    (hblock : body.isBlock = true) : StatementComesBack ⟨loc, .forLoop init cond step body⟩ := by
  have hrow : printEnded ⟨loc, .forLoop init cond step body⟩ = .keyword .forKw :: (printOptional init ++ .mark .semicolon ::
    (printOptional cond ++ .mark .semicolon :: (printOptional step ++ body.print 0))) := printEnded_of_plain rfl
  refine statementComesBack_of_row hrow ⟨by simp, by simp, by simp⟩ rfl rfl fun fuel hfuel => ?_
  obtain _ | fuel := fuel
  · omega
  simp only [List.length_cons, List.length_append] at hfuel
  refine goes_current fun t ht => ?_
  simp only [ht]
  refine goes_expect fun _ => ?_
  show Goes _ (printOptional init ++ .mark .semicolon :: (printOptional cond ++ .mark .semicolon :: (printOptional step ++ body.print 0))) _ _ _
  have hrest : printOptional cond ++ .mark .semicolon :: (printOptional step ++ body.print 0) ≠ [] := by simp
  obtain ⟨k, k', row, hheader, heach⟩ := not_startsEach hinit hrest
  rw [hheader]
  refine goes_atForEach ?_
  rw [← hheader, heach]
  have hinit' : Reads (absentAt (.mark .semicolon) (loopInit fuel)) (printOptional init) (· = .mark .semicolon)
      fun v => v.map Node.bare = init.map Node.bare := by
    refine reads_absentAt fun n hn => ?_
    subst hn
    obtain ⟨k, ks, hrow, hk, _⟩ := isSimple_head (hinit n rfl)
    have hlen : (printOptional (some n)).length = (n.print 0).length := rfl
    exact ⟨reads_loopInit (hinit n rfl) (by omega), k, ks, hrow, hk⟩
  refine hinit'.then (fun init' hi => ?_) fun _ _ => rfl
  refine goes_expect fun _ => ?_
  refine (reads_optionalValue hcond rfl rfl rfl (by omega)).then (fun cond' hc => ?_) fun _ _ => rfl
  refine goes_expect fun _ => ?_
  refine (reads_optionalValue hstep rfl rfl rfl (by omega)).then (fun step' hs => ?_) fun k _ => ?_
  · refine (hbody.block hblock fuel (by omega)).ends fun body' hbody' => reads_make ?_
    refine like_mk ?_
    show Form.forLoop (init'.map Node.bare) (cond'.map Node.bare) (step'.map Node.bare) body'.bare =
      .forLoop (init.map Node.bare) (cond.map Node.bare) (step.map Node.bare) body.bare
    rw [hi, hc, hs, hbody']
  · exact headD_isBlock hblock k

/-- Every statement comes back. -/
theorem statementComesBack (h : n.IsStatement) : StatementComesBack n := by
  induction h with
  | define hb hinit => exact statementComesBack_define hb hinit
  | expression hn => exact statementComesBack_expression hn
  | empty => exact statementComesBack_empty
  | block _ ih => exact statementComesBack_block ih
  | branch hcond _ hblock _ hkind ihyes ihno => exact statementComesBack_branch hcond ihyes hblock ihno hkind
  | whileLoop hcond _ hblock ih => exact statementComesBack_whileLoop hcond ih hblock
  | forLoop hinit hcond hstep _ hblock ih => exact statementComesBack_forLoop hinit hcond hstep ih hblock
  | forEach _ hiteratee _ hblock ih => exact statementComesBack_forEach hiteratee ih hblock
  | ret hvalue => exact statementComesBack_ret hvalue

end Parser

end Ember
