import Ember.Proofs.Tree.Statement

/-!
# Parsing undoes printing

The row of a source is parsed to the tree that it was printed from, for every tree in the normal form of the parser, and the parser
gives no other trees (`ofTokens_printUnit`).
-/

namespace Ember

/-! ## Dotted names -/

theorem splitAtDots_of_plain {cs : List Char} (h : ∀ c ∈ cs, c ≠ '.') : splitAtDots cs = [cs] := by
  induction cs with
  | nil => rfl
  | cons c cs ih =>
    obtain ⟨hc, h⟩ := List.forall_mem_cons.mp h
    rw [splitAtDots, if_neg hc, ih h]

theorem splitAtDots_append {cs : List Char} (h : ∀ c ∈ cs, c ≠ '.') (ds : List Char) :
    splitAtDots (cs ++ '.' :: ds) = cs :: splitAtDots ds := by
  induction cs with
  | nil => rw [List.nil_append, splitAtDots, if_pos rfl]
  | cons c cs ih =>
    obtain ⟨hc, h⟩ := List.forall_mem_cons.mp h
    rw [List.cons_append, splitAtDots, if_neg hc, ih h]

theorem IsName.no_dot {name : String} (h : IsName name) : ∀ c ∈ name.toList, c ≠ '.' := by
  rintro c hc rfl
  have := h.word.2 _ hc
  revert this
  decide

theorem Kind.ofDotted_dotted {name : String} {names : List String} (h : ∀ n ∈ name :: names, IsName n) :
    Kind.ofDotted (dotted (name :: names)) = .ident name :: names.flatMap fun n => [.mark .dot, .ident n] := by
  induction names generalizing name with
  | nil =>
    have hname := h name List.mem_cons_self
    rw [ofDotted, dotted, splitAtDots_of_plain hname.no_dot]
    simp
  | cons name' names ih =>
    obtain ⟨hname, h⟩ := List.forall_mem_cons.mp h
    have ih := ih h
    rw [ofDotted] at ih ⊢
    have hlist : (dotted (name :: name' :: names)).toList = name.toList ++ '.' :: (dotted (name' :: names)).toList := by
      simp [dotted]
    rw [hlist, splitAtDots_append hname.no_dot, List.map_cons, String.ofList_toList]
    cases hrest : (splitAtDots (dotted (name' :: names)).toList).map fun part => Kind.ident (String.ofList part) with
    | nil => rw [hrest] at ih; cases ih
    | cons k ks =>
      rw [hrest] at ih
      rw [List.intersperse_cons_cons, ih]
      rfl

namespace Parser

open Node (Like like_mk IsValue IsParameter IsItem printDefinition)

variable {follow : Kind → Prop}

variable {name : String} {loc : Loc} {body : Option Node}

theorem reads_dottedName (h : IsDotted name) {parts : Nat} (hparts : (Kind.ofDotted name).length ≤ parts) :
    Reads (dottedName parts) (Kind.ofDotted name) (· ≠ .mark .dot) (· = name) := by
  obtain ⟨names, hne, hnames, rfl⟩ := h
  obtain ⟨name, names, rfl⟩ := List.exists_cons_of_ne_nil hne
  rw [Kind.ofDotted_dotted hnames] at hparts ⊢
  induction names generalizing name parts with
  | nil =>
    obtain ⟨parts, rfl⟩ : ∃ p, parts = p + 1 := ⟨parts - 1, by rw [List.length_cons] at hparts; omega⟩
    refine (reads_identifier _ name).ends fun name' hname => ?_
    refine goes_consume_false (fun _ hk => hk) ?_
    exact reads_pure hname
  | cons name' names ih =>
    rw [List.flatMap_cons] at hparts ⊢
    simp only [List.length_cons, List.length_append] at hparts
    obtain ⟨parts, rfl⟩ : ∃ p, parts = p + 1 := ⟨parts - 1, by omega⟩
    refine (reads_identifier _ name).step fun first hfirst => ?_
    subst hfirst
    refine goes_consume_true ?_
    have hrest : Reads (dottedName parts) (.ident name' :: names.flatMap fun n => [.mark .dot, .ident n]) (· ≠ .mark .dot) _ :=
      ih name' (by simp) (List.forall_mem_cons.mp hnames).2 (by rw [List.length_cons]; omega)
    exact hrest.last (fun rest hrest => reads_pure (by rw [hrest]; rfl)) fun _ hk => hk

/-! ## Parameters -/

theorem reads_passMode (mode : PassMode) : Reads passMode (Kind.ofMode mode) (fun k => ∃ name, k = .ident name) (· = mode) := by
  cases mode with
  | copy =>
    refine (reads_current fun k => ∃ name, k = .ident name).peek (fun t ht => ?_) fun _ hk => hk
    obtain ⟨name, ht⟩ := ht
    simp only [ht]
    exact reads_pure rfl
  | ref | view =>
    refine goes_current fun t ht => ?_
    simp only [ht]
    exact goes_advance fun _ _ => reads_pure rfl

theorem reads_parameter {n : Node} (h : n.IsParameter) : Reads parameter (n.print 0) (· ≠ .mark .colon) (Like · n) := by
  obtain @⟨loc, loc', b, mode, hb, hmutable⟩ := h
  have hrow : Node.print ⟨loc, .parameter ⟨loc', .define b none⟩ mode⟩ 0 = Kind.ofMode mode ++ .ident b.name :: Kind.ofAnnotation b.type :=
    Node.print_zero _
  rw [hrow]
  refine goes_here fun _ => ?_
  refine (reads_passMode mode).then (fun mode' hmode => ?_) fun _ _ => ⟨_, rfl⟩
  subst hmode
  refine goes_here fun _ => ?_
  refine (reads_identifier _ b.name).step fun name hname => ?_
  subst hname
  refine (reads_annotated b.type).last (fun type htype => ?_) fun _ hk => hk
  have hbinder := hb.bare_eq htype ((congrArg (decide (mode' = .ref) || ·) (any_mutable_of_bare htype)).trans hmutable.symm)
  refine (reads_made loc').peek (fun definition hdefinition => ?_) fun _ _ => trivial
  have hdefinition : Like definition ⟨loc', .define b none⟩ := hdefinition.trans (like_mk (congrArg (Form.define · none) hbinder))
  exact reads_make (like_mk (congrArg (Form.parameter · mode') hdefinition))

theorem reads_parameters {params : List Node} (h : ∀ p ∈ params, p.IsParameter) (fuel : Nat)
    (hfuel : 8 * (Kind.separated (params.map (·.print 0))).length + 2 ≤ fuel) :
    Reads (parameters fuel) (Kind.separated (params.map (·.print 0))) (· = .mark .rParen) fun l => l.map Node.bare = params.map Node.bare := by
  refine reads_separated (fun _ => rfl) (fun p hp => ?_) (fun p hp _ _ => ?_) fuel hfuel
  · obtain @⟨loc, loc', b, mode, _, _⟩ := h p hp
    rw [Node.print_zero]
    cases mode with
    | copy | ref | view => exact ⟨_, _, rfl, by simp, by simp⟩
  · refine (reads_parameter (h p hp)).mono (fun _ h => h) ?_
    rintro k (rfl | rfl)
    · simp
    · simp

/-! ## Items -/

/-- The row of an item comes back as the item. -/
structure ItemComesBack (n : Node) : Prop where
  head : ∃ k ks, n.print 0 = k :: ks ∧ k ≠ .endOfFile
  item : ∀ fuel, 8 * (n.print 0).length + 1 ≤ fuel → Reads (Parser.item fuel) (n.print 0) (fun _ => True) (Like · n)

theorem itemComesBack_nameUnit (h : IsDotted name) : ItemComesBack ⟨loc, .nameUnit name⟩ := by
  have hrow : Node.print ⟨loc, .nameUnit name⟩ 0 = .keyword .moduleKw :: (Kind.ofDotted name ++ [.mark .semicolon]) := Node.print_zero _
  refine ⟨⟨_, _, hrow, by simp⟩, fun fuel hfuel => ?_⟩
  rw [hrow] at hfuel ⊢
  simp only [List.length_cons, List.length_append] at hfuel
  refine goes_current fun t ht => ?_
  simp only [ht]
  refine goes_expect fun _ => ?_
  refine (reads_dottedName h (by omega)).then (fun name' hname => ?_) fun _ _ => by simp
  subst hname
  exact goes_expect fun _ => reads_make (like_mk rfl)

theorem itemComesBack_alias {target : TypeRef} : ItemComesBack ⟨loc, .alias name target⟩ := by
  have hrow : Node.print ⟨loc, .alias name target⟩ 0 =
    .keyword .typeKw :: .ident name :: .mark .eq :: (Kind.ofType target ++ [.mark .semicolon]) := Node.print_zero _
  refine ⟨⟨_, _, hrow, by simp⟩, fun fuel _ => ?_⟩
  rw [hrow]
  refine goes_current fun t ht => ?_
  simp only [ht]
  refine goes_expect fun _ => ?_
  refine (reads_identifier _ name).step fun name' hname => ?_
  subst hname
  refine goes_expect fun _ => ?_
  refine (reads_typeRef target).step fun target' htarget => ?_
  exact goes_expect fun _ => reads_make (like_mk (congrArg (Form.alias name') htarget))

theorem itemComesBack_empty : ItemComesBack ⟨loc, .empty⟩ := by
  have hrow : Node.print ⟨loc, .empty⟩ 0 = [.mark .semicolon] := Node.print_zero _
  refine ⟨⟨_, _, hrow, by simp⟩, fun fuel _ => ?_⟩
  rw [hrow]
  refine goes_current fun t ht => ?_
  simp only [ht]
  exact goes_advance fun _ _ => reads_make (like_mk rfl)

theorem itemComesBack_defineGlobal {b : Binder} {init : Option Node} (hb : b.Declared) (hinit : ∀ n, init = some n → n.IsValue) :
    ItemComesBack ⟨loc, .defineGlobal b init⟩ := by
  obtain ⟨k, ks, hprint, hk⟩ := printDefinition_head b init
  have hrow : Node.print ⟨loc, .defineGlobal b init⟩ 0 = printDefinition b init ++ [.mark .semicolon] := Node.print_zero _
  refine ⟨⟨k, _, hrow.trans (congrArg (· ++ _) hprint), by obtain rfl | rfl := hk <;> simp⟩, fun fuel hfuel => ?_⟩
  rw [hrow] at hfuel ⊢
  rw [List.length_append] at hfuel
  have hdefinition : Reads (definitionStatement fuel true) (printDefinition b init ++ [.mark .semicolon]) (fun _ => True)
      (Like · ⟨loc, .defineGlobal b init⟩) := reads_definitionStatement hb hinit true (by omega) loc
  refine (reads_current fun k => k = .keyword .letKw ∨ k = .keyword .varKw).peek (fun t ht => ?_) fun _ _ => by rw [hprint]; exact hk
  obtain ht | ht := ht
  · simp only [ht]
    exact hdefinition
  · simp only [ht]
    exact hdefinition

/-- What an import is of, and what comes behind it. -/
theorem goes_importKind {α γ : Type} {next : ImportKind → Parser Forest α} {q : γ → Parser Forest α} {row : List Kind} {Q : γ → Prop}
    (kind : ImportKind) (h : Goes (next kind) row follow Q q)
    (hrow : ∀ k, follow k → row.headD k ≠ .keyword .moduleKw ∧ row.headD k ≠ .keyword .packageKw) :
    Goes (consume (.keyword .moduleKw) >>= fun b => if b then pure .module >>= next else
      consume (.keyword .packageKw) >>= fun b => if b then pure .package >>= next else pure .unspecified >>= next)
      (Kind.ofImportKind kind ++ row) follow Q q := by
  cases kind with
  | unspecified =>
    refine goes_consume_false (fun k hk => (hrow k hk).1) ?_
    refine goes_consume_false (fun k hk => (hrow k hk).2) ?_
    exact h
  | module =>
    refine goes_consume_true ?_
    exact h
  | package =>
    refine goes_consume_false (fun k hk => by simp [Kind.ofImportKind]) ?_
    refine goes_consume_true ?_
    exact h

theorem ofDotted_head (h : IsDotted name) (row : List Kind) (k : Kind) : ∃ first, (Kind.ofDotted name ++ row).headD k = .ident first := by
  obtain ⟨names, hne, hnames, rfl⟩ := h
  obtain ⟨first, names, rfl⟩ := List.exists_cons_of_ne_nil hne
  rw [Kind.ofDotted_dotted hnames]
  exact ⟨first, rfl⟩

theorem itemComesBack_importUnit {target : String} {kind : ImportKind} {isPath : Bool} (h : isPath = false → IsDotted target) :
    ItemComesBack ⟨loc, .importUnit target kind isPath⟩ := by
  have hrow : Node.print ⟨loc, .importUnit target kind isPath⟩ 0 = .keyword .importKw :: (Kind.ofImportKind kind ++
    ((if isPath then [.string target] else Kind.ofDotted target) ++ [.mark .semicolon])) := Node.print_zero _
  refine ⟨⟨_, _, hrow, by simp⟩, fun fuel hfuel => ?_⟩
  rw [hrow] at hfuel ⊢
  simp only [List.length_cons, List.length_append] at hfuel
  refine goes_current fun t ht => ?_
  simp only [ht]
  refine goes_expect fun _ => ?_
  cases isPath with
  | true =>
    refine goes_importKind kind ?_ fun _ _ => by simp
    refine goes_current fun t ht => ?_
    simp only [ht]
    refine goes_advance fun _ _ => ?_
    rw [pure_bind]
    exact goes_expect fun _ => reads_make (like_mk rfl)
  | false =>
    have hhead := ofDotted_head (h rfl) [.mark .semicolon]
    rw [if_neg Bool.false_ne_true] at hfuel ⊢
    refine goes_importKind kind ?_ fun k _ => ?_
    · refine (reads_current fun k => ∃ first, k = .ident first).peek (fun t ht => ?_) fun k _ => hhead k
      obtain ⟨first, ht⟩ := ht
      simp only [ht]
      refine (reads_dottedName (h rfl) (by omega)).then (fun name hname => ?_) fun _ _ => by simp
      subst hname
      rw [pure_bind]
      exact goes_expect fun _ => reads_make (like_mk rfl)
    · obtain ⟨first, hfirst⟩ := hhead k
      rw [hfirst]
      simp

/-- The row of the body of a function, or what stands in its place. -/
def printBody (body : Option Node) : List Kind :=
  body.elim [.mark .semicolon] (·.print 0)

theorem printBody_head (hblock : ∀ b, body = some b → b.isBlock = true) (k : Kind) : (printBody body).headD k ≠ .mark .colon := by
  cases body with
  | none => simp [printBody]
  | some body =>
    show (body.print 0).headD k ≠ _
    rw [headD_isBlock (hblock body rfl)]
    simp

theorem goes_functionBody {head head' : Node} (hhead : Like head' head) (hbody : ∀ b, body = some b → b.IsStatement)
    (hblock : ∀ b, body = some b → b.isBlock = true) {fuel : Nat} (hfuel : 8 * (printBody body).length + 1 ≤ fuel) (loc loc' : Loc) :
    Goes (consume (.mark .semicolon) >>= fun b => if b then make loc' (.function head' none true) else
      block fuel >>= fun body => make loc' (.function head' (some body) false)) (printBody body) (fun _ => True)
      (Like · ⟨loc, .function head body body.isNone⟩) pure := by
  cases body with
  | none =>
    refine goes_consume_true ?_
    exact reads_make (like_mk (congrArg (Form.function · none true) hhead))
  | some body =>
    refine goes_consume_false (fun k _ => ?_) ?_
    · show (body.print 0).headD k ≠ _
      rw [headD_isBlock (hblock body rfl)]
      simp
    · refine ((statementComesBack (hbody body rfl)).block (hblock body rfl) fuel hfuel).last (fun body' hbody' => reads_make ?_)
        fun _ _ => trivial
      refine like_mk ?_
      show Form.function head'.bare (some body'.bare) false = .function head.bare (some body.bare) false
      rw [hhead, hbody']

theorem itemComesBack_function {loc' : Loc} {returns : TypeRef} {params : List Node} {inlined declaration : Bool}
    (hparams : ∀ p ∈ params, p.IsParameter) (hbody : ∀ b, body = some b → b.IsStatement) (hblock : ∀ b, body = some b → b.isBlock = true)
    (hdeclaration : declaration = body.isNone) :
    ItemComesBack ⟨loc, .function ⟨loc', .prototype name returns params inlined⟩ body declaration⟩ := by
  subst hdeclaration
  have hrow : Node.print ⟨loc, .function ⟨loc', .prototype name returns params inlined⟩ body body.isNone⟩ 0 =
      (if inlined then [.keyword .inlineKw] else []) ++ .keyword .defKw :: .ident name :: .mark .lParen ::
        (Kind.separated (params.map (·.print 0)) ++ .mark .rParen :: .mark .colon :: (Kind.ofType returns ++ printBody body)) := by
    have hhead : Node.print ⟨loc', .prototype name returns params inlined⟩ 0 =
        (if inlined then [.keyword .inlineKw] else []) ++ .keyword .defKw :: .ident name :: .mark .lParen ::
          (Kind.separated (params.map (·.print 0)) ++ .mark .rParen :: .mark .colon :: Kind.ofType returns) := by
      rw [Node.print_zero, Node.row]
      show _ ++ _ :: _ :: _ :: (Kind.separated ((params.map _).map _) ++ _) = _
      rw [List.map_map]
      rfl
    rw [Node.print_zero]
    cases body with
    | none =>
      show Node.print ⟨loc', .prototype name returns params inlined⟩ 0 ++ [_] = _
      simp [hhead, printBody]
    | some body =>
      show Node.print ⟨loc', .prototype name returns params inlined⟩ 0 ++ body.print 0 = _
      simp [hhead, printBody]
  have hfirst : ∃ k ks, Node.print ⟨loc, .function ⟨loc', .prototype name returns params inlined⟩ body body.isNone⟩ 0 = k :: ks ∧
      (k = .keyword .defKw ∨ k = .keyword .inlineKw) := by
    rw [hrow]
    cases inlined with
    | false => exact ⟨_, _, rfl, .inl rfl⟩
    | true => exact ⟨_, _, rfl, .inr rfl⟩
  obtain ⟨k, ks, hprint, hk⟩ := hfirst
  refine ⟨⟨k, ks, hprint, by obtain rfl | rfl := hk <;> simp⟩, fun fuel hfuel => ?_⟩
  have hfunction : Reads (function fuel) (Node.print ⟨loc, .function ⟨loc', .prototype name returns params inlined⟩ body body.isNone⟩ 0)
      (fun _ => True) (Like · ⟨loc, .function ⟨loc', .prototype name returns params inlined⟩ body body.isNone⟩) := by
    rw [hrow] at hfuel ⊢
    simp only [List.length_cons, List.length_append] at hfuel
    refine goes_here fun _ => ?_
    have hinline : Reads (consume (.keyword .inlineKw)) (if inlined then [.keyword .inlineKw] else []) (· = .keyword .defKw) (· = inlined) := by
      cases inlined with
      | false => exact (reads_consume_false _).mono (fun _ h => h) (by rintro k rfl; simp)
      | true => exact (reads_consume_true _).mono (fun _ h => h) fun _ _ => trivial
    refine hinline.then (fun inlined' hinlined => ?_) fun _ _ => rfl
    subst hinlined
    refine goes_expect fun _ => ?_
    refine (reads_identifier _ name).step fun name' hname => ?_
    subst hname
    refine goes_expect fun _ => ?_
    refine (reads_parameters hparams fuel (by omega)).then (fun params' hparams' => ?_) fun _ _ => rfl
    refine goes_expect fun _ => ?_
    refine (reads_annotated (some returns)).then (fun returns' hreturns => ?_) fun k _ => ?_
    · obtain ⟨returns', rfl, hbare⟩ := Option.map_eq_some_iff.mp hreturns
      simp only [pure_bind]
      refine (reads_made loc').peek (fun head hhead => ?_) fun _ _ => trivial
      have hhead : Like head ⟨loc', .prototype name' returns params inlined'⟩ := by
        refine hhead.trans (like_mk ?_)
        show Form.prototype name' returns'.bare (params'.map Node.bare) inlined' = .prototype name' returns.bare (params.map Node.bare) inlined'
        rw [hbare, hparams']
      exact goes_functionBody hhead hbody hblock (by omega) _ _
    · exact printBody_head hblock k
  refine (reads_current fun k => k = .keyword .defKw ∨ k = .keyword .inlineKw).peek (fun t ht => ?_) fun _ _ => by rw [hprint]; exact hk
  obtain ht | ht := ht
  · simp only [ht]
    exact hfunction
  · simp only [ht]
    exact hfunction

theorem itemComesBack {n : Node} (h : n.IsItem) : ItemComesBack n := by
  cases h with
  | nameUnit h => exact itemComesBack_nameUnit h
  | importUnit h => exact itemComesBack_importUnit h
  | «alias» => exact itemComesBack_alias
  | defineGlobal hb hinit => exact itemComesBack_defineGlobal hb hinit
  | empty => exact itemComesBack_empty
  | function _ _ hparams hbody hblock hdeclaration => exact itemComesBack_function hparams hbody hblock hdeclaration

/-- The items of a source come back, up to the end of the file. -/
theorem reads_itemList {items : List Node} (h : ∀ n ∈ items, n.IsItem) {fuel count : Nat}
    (hfuel : 8 * (items.flatMap (Node.print · 0)).length + 1 ≤ fuel) (hcount : (items.flatMap (Node.print · 0)).length < count) :
    Reads (itemList fuel count) (items.flatMap (Node.print · 0)) (· = .endOfFile) fun l => l.map Node.bare = items.map Node.bare := by
  induction items generalizing count with
  | nil =>
    obtain ⟨count, rfl⟩ : ∃ c, count = c + 1 := ⟨count - 1, by omega⟩
    refine goes_at_true (fun _ hk => hk) ?_
    exact reads_pure rfl
  | cons n items ih =>
    obtain ⟨hn, h⟩ := List.forall_mem_cons.mp h
    obtain ⟨count, rfl⟩ : ∃ c, count = c + 1 := ⟨count - 1, by omega⟩
    obtain ⟨⟨k, ks, hrow, hend⟩, hitem⟩ := itemComesBack hn
    have hpos : 0 < (n.print 0).length := by rw [hrow]; exact Nat.succ_pos _
    rw [List.flatMap_cons] at hfuel hcount ⊢
    rw [List.length_append] at hfuel hcount
    refine goes_at_false (fun _ _ => by rw [hrow]; exact hend) ?_
    refine (hitem fuel (by omega)).step fun n' hn' => ?_
    refine (ih h (by omega) (by omega)).last (fun l hl => reads_pure ?_) fun _ hk => hk
    rw [List.map_cons, List.map_cons, hl, show n'.bare = n.bare from hn']

end Parser

/-! ## Sources -/

namespace Node

/-- The trees of sources. -/
inductive IsUnit : Node → Prop where
  | mk {loc : Loc} {items : List Node} : (∀ i ∈ items, IsItem i) → IsUnit ⟨loc, .block items⟩

/-- The tokens that a tree is printed to. -/
def Prints (n : Node) (tokens : List Token) : Prop :=
  tokens.map (·.kind) = n.printUnit ++ [.endOfFile]

theorem IsUnit.ofTokens_prints {n : Node} (h : n.IsUnit) {tokens : List Token} (htokens : n.Prints tokens) :
    ∃ m, ofTokens tokens = .ok m ∧ m.Like n := by
  obtain @⟨loc, items, hitems⟩ := h
  obtain ⟨ts, ends, rfl, hts, hends⟩ := List.map_eq_append_iff.mp htokens
  obtain ⟨t, rfl, ht⟩ := List.map_eq_singleton_iff.mp hends
  have hlen : (items.flatMap (print · 0)).length = ts.length := (congrArg List.length hts).symm.trans (List.length_map _)
  have hfuel : (items.flatMap (print · 0)).length + 2 = (ts ++ [t]).length + 1 := by rw [hlen, List.length_append]; rfl
  have hread : Parser.Reads (Parser.itemList (8 * ((ts ++ [t]).length + 1)) (8 * ((ts ++ [t]).length + 1))) _ (· = .endOfFile) _ :=
    Parser.reads_itemList hitems (by omega) (by omega)
  obtain ⟨items', hlike, hrun⟩ := hread ts hts t [] ht
  refine ⟨⟨.start, .block items'⟩, ?_, like_mk (congrArg Form.block hlike)⟩
  rw [ofTokens_eq, hrun]
  rfl

theorem isUnit_of_parse {source : String} {n : Node} (h : parse source = .ok n) : n.IsUnit := by
  have hitems := isItem_of_parse h
  rw [parse, ofTokens_eq] at h
  cases hrun : (Parser.itemList _ _ : Parser Forest (List Node)) { tokens := Token.scan source, store := () } with
  | error f => rw [hrun] at h; cases h
  | ok r =>
    rw [hrun] at h
    cases h
    exact .mk hitems

/-- A tree in normal form that is printed, whatever the locations, is parsed to the same tree but for locations; and what is parsed from
a source is in normal form, so that it comes back when it is printed and parsed again. -/
theorem ofTokens_printUnit :
    (∀ n tokens, IsUnit n → n.Prints tokens → ∃ m, ofTokens tokens = .ok m ∧ m.Like n) ∧
    ∀ source n, parse source = .ok n → n.IsUnit ∧ ∀ tokens, n.Prints tokens → ∃ m, ofTokens tokens = .ok m ∧ m.Like n :=
  ⟨fun _ _ h htokens => h.ofTokens_prints htokens, fun _ _ h =>
    ⟨isUnit_of_parse h, fun _ htokens => (isUnit_of_parse h).ofTokens_prints htokens⟩⟩

/-- A difference that was grouped to the right keeps its parentheses, and a product in a sum gets none. -/
theorem ofTokens_printUnit_difference : ∃ n, parse "let x = (a - (b - c)) + (d * e);" = .ok n ∧ n.IsUnit ∧
    n.printUnit = [.keyword .letKw, .ident "x", .mark .eq, .ident "a", .mark .minus, .mark .lParen, .ident "b", .mark .minus, .ident "c",
      .mark .rParen, .mark .plus, .ident "d", .mark .star, .ident "e", .mark .semicolon] ∧
    ∃ m, ofTokens (n.printUnit.map (⟨·, .start⟩) ++ [⟨.endOfFile, .start⟩]) = .ok m ∧ m.Like n := by
  have hprint : (parse "let x = (a - (b - c)) + (d * e);").toOption.map printUnit = some
      [.keyword .letKw, .ident "x", .mark .eq, .ident "a", .mark .minus, .mark .lParen, .ident "b", .mark .minus, .ident "c",
      .mark .rParen, .mark .plus, .ident "d", .mark .star, .ident "e", .mark .semicolon] := by decide +kernel
  cases h : parse "let x = (a - (b - c)) + (d * e);" with
  | error fault => rw [h] at hprint; cases hprint
  | ok n =>
    rw [h] at hprint
    obtain ⟨hunit, hagain⟩ := ofTokens_printUnit.2 _ n h
    exact ⟨n, rfl, hunit, Option.some.inj hprint, hagain _ (by simp [Prints, Function.comp_def])⟩

end Node

end Ember
