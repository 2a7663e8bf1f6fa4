import Ember.Compile
import Mathlib.Data.List.TakeWhile

/-!
# What the parser yields

The trees of the parser are in a normal form: names are words and no keywords, a plain name that is called or assigned to stands for the
variable and elsewhere for its value, a minus before a number is part of the number, what stands under a condition or a loop is a block,
and so on. Lowering is correct for such trees only: it does not look for a definition in the middle of an expression.
-/

namespace Ember

/-- A text that the scanner takes for one word. -/
def IsWord (name : String) : Prop :=
  name.toList ≠ [] ∧ ∀ c ∈ name.toList, Text.continuesWord c = true

theorem isWord_iff {name : String} : IsWord name ↔ (!name.toList.isEmpty && name.toList.all Text.continuesWord) = true := by
  simp [IsWord]

/-- A word that is no keyword. -/
structure IsName (name : String) : Prop where
  word : IsWord name
  free : Keyword.ofWord? name = none

/-- Names divided by dots. -/
def dotted : List String → String
  | [] => ""
  | [name] => name
  | name :: names => name ++ "." ++ dotted names

/-- A row of names divided by dots. -/
def IsDotted (name : String) : Prop :=
  ∃ names, names ≠ [] ∧ (∀ n ∈ names, IsName n) ∧ name = dotted names

/-- The head of a definition as a source can write it: the type is inferred if none is written, and one that is written behind `mut`
makes the variable mutable. -/
structure Binder.Declared (b : Binder) : Prop where
  name : IsName b.name
  type : ∀ type, b.type = some type → IsName type.name
  inferred : b.inferred = b.type.isNone
  mutable : b.type.any (·.mutable) = true → b.mutable = true

namespace Node

/-- A name that stands for its variable. -/
def isIdentifier : Node → Bool
  | ⟨_, .identifier _⟩ => true
  | _ => false

/-- A name that stands for the value of its variable. -/
def isVariable : Node → Bool
  | ⟨_, .variable _⟩ => true
  | _ => false

/-- A literal that a minus becomes part of. -/
def isNumber : Node → Bool
  | ⟨_, .integer _⟩ => true
  | ⟨_, .floating _⟩ => true
  | _ => false

def isBlock : Node → Bool
  | ⟨_, .block _⟩ => true
  | _ => false

def isBranch : Node → Bool
  | ⟨_, .branch ..⟩ => true
  | _ => false

/-- Whether a statement gives a name a meaning for the statements behind it. -/
def definesName : Node → Bool
  | ⟨_, .define ..⟩ => true
  | _ => false

theorem definesName_of_isBlock {n : Node} (h : n.isBlock = true) : n.definesName = false := by
  obtain ⟨loc, form⟩ := n
  cases form with
  | block => rfl
  | _ => cases h

theorem definesName_of_isBranch {n : Node} (h : n.isBranch = true) : n.definesName = false := by
  obtain ⟨loc, form⟩ := n
  cases form with
  | branch => rfl
  | _ => cases h

end Node

/-- The code of a character or of a byte is in range. -/
def Form.InRange {α : Type} : Form α → Prop
  | .character code byte => if byte then code < 256 else code.isValidChar
  | _ => True

namespace Node

/-- The trees of expressions. A name that stands for its variable is called or assigned to, and only there. -/
inductive IsExpression : Node → Prop where
  | literal {loc : Loc} {form : Form Node} : form.literal?.isSome = true → form.InRange → IsExpression ⟨loc, form⟩
  | identifier {loc : Loc} {name : String} : IsName name → IsExpression ⟨loc, .identifier name⟩
  | variable {loc : Loc} {name : String} : IsName name → IsExpression ⟨loc, .variable name⟩
  | cast {loc : Loc} {inner : Node} {type : TypeRef} :
      IsExpression inner → inner.isIdentifier = false → IsName type.name → IsExpression ⟨loc, .cast inner type⟩
  | call {loc : Loc} {callee : Node} {args : List Node} :
      IsExpression callee → callee.isVariable = false → (∀ a ∈ args, IsExpression a) → (∀ a ∈ args, a.isIdentifier = false) →
      IsExpression ⟨loc, .call callee args⟩
  | member {loc : Loc} {object : Node} {name : String} :
      IsExpression object → object.isIdentifier = false → IsName name → IsExpression ⟨loc, .member object name⟩
  | subscript {loc : Loc} {object index : Node} :
      IsExpression object → object.isIdentifier = false → IsExpression index → index.isIdentifier = false →
      IsExpression ⟨loc, .subscript object index⟩
  | slice {loc : Loc} {object : Node} {first last : Option Node} :
      IsExpression object → object.isIdentifier = false →
      (∀ n, first = some n → IsExpression n) → (∀ n, first = some n → n.isIdentifier = false) →
      (∀ n, last = some n → IsExpression n) → (∀ n, last = some n → n.isIdentifier = false) →
      IsExpression ⟨loc, .slice object first last⟩
  | unary {loc : Loc} {op : Operator} {operand : Node} :
      IsExpression operand → operand.isIdentifier = false → (∃ m : Mark, m.unary? = some op) →
      (op = .unaryMinus → operand.isNumber = false) → IsExpression ⟨loc, .unary op operand⟩
  | binary {loc : Loc} {op : Operator} {left right : Node} :
      IsExpression left → left.isIdentifier = false → IsExpression right → right.isIdentifier = false →
      (∃ (m : Mark) (power : Nat), m.binary? = some (power, op) ∧ power ≠ assignmentPower) → IsExpression ⟨loc, .binary op left right⟩
  | assign {loc : Loc} {op : Operator} {target value : Node} :
      IsExpression target → target.isVariable = false → IsExpression value → value.isIdentifier = false →
      (∃ m : Mark, m.binary? = some (assignmentPower, op)) → IsExpression ⟨loc, .assign op target value⟩

/-- An expression that stands for a value. -/
structure IsValue (n : Node) : Prop where
  expression : n.IsExpression
  plain : n.isIdentifier = false

/-- What the header of a loop starts with: an expression, or the definition of a variable. -/
inductive IsSimple : Node → Prop where
  | value {n : Node} : IsValue n → IsSimple n
  | define {loc : Loc} {binder : Binder} {init : Option Node} :
      binder.Declared → (∀ n, init = some n → IsValue n) → IsSimple ⟨loc, .define binder init⟩

/-- The trees of statements. -/
inductive IsStatement : Node → Prop where
  | define {loc : Loc} {binder : Binder} {init : Option Node} :
      binder.Declared → (∀ n, init = some n → IsValue n) → IsStatement ⟨loc, .define binder init⟩
  | expression {loc : Loc} {n : Node} : IsValue n → IsStatement ⟨loc, .expression n⟩
  | empty {loc : Loc} : IsStatement ⟨loc, .empty⟩
  | block {loc : Loc} {stmts : List Node} : (∀ n ∈ stmts, IsStatement n) → IsStatement ⟨loc, .block stmts⟩
  | branch {loc : Loc} {cond yes : Node} {no : Option Node} :
      IsValue cond → IsStatement yes → yes.isBlock = true →
      (∀ n, no = some n → IsStatement n) → (∀ n, no = some n → n.isBlock = true ∨ n.isBranch = true) →
      IsStatement ⟨loc, .branch cond yes no⟩
  | whileLoop {loc : Loc} {cond body : Node} :
      IsValue cond → IsStatement body → body.isBlock = true → IsStatement ⟨loc, .whileLoop cond body⟩
  | forLoop {loc : Loc} {init cond step : Option Node} {body : Node} :
      (∀ n, init = some n → IsSimple n) → (∀ n, cond = some n → IsValue n) →
      (∀ n, step = some n → IsValue n) → IsStatement body → body.isBlock = true →
      IsStatement ⟨loc, .forLoop init cond step body⟩
  | forEach {loc loc' : Loc} {name : String} {iteratee body : Node} :
      IsName name → IsValue iteratee → IsStatement body → body.isBlock = true →
      IsStatement ⟨loc, .forEach ⟨loc', .define { name, type := none, inferred := true, mutable := false } none⟩ iteratee body⟩
  | ret {loc : Loc} {value : Option Node} : (∀ n, value = some n → IsValue n) → IsStatement ⟨loc, .ret value⟩

/-- The trees of parameters: definitions of variables, without a value. Those of references are mutable. -/
inductive IsParameter : Node → Prop where
  | mk {loc loc' : Loc} {binder : Binder} {mode : PassMode} :
      binder.Declared → binder.mutable = (decide (mode = .ref) || binder.type.any (·.mutable)) →
      IsParameter ⟨loc, .parameter ⟨loc', .define binder none⟩ mode⟩

/-- The trees of the items of a source. -/
inductive IsItem : Node → Prop where
  | nameUnit {loc : Loc} {name : String} : IsDotted name → IsItem ⟨loc, .nameUnit name⟩
  | importUnit {loc : Loc} {target : String} {kind : ImportKind} {isPath : Bool} :
      (isPath = false → IsDotted target) → IsItem ⟨loc, .importUnit target kind isPath⟩
  | alias {loc : Loc} {name : String} {target : TypeRef} :
      IsName name → IsName target.name → IsItem ⟨loc, .alias name target⟩
  | defineGlobal {loc : Loc} {binder : Binder} {init : Option Node} :
      binder.Declared → (∀ n, init = some n → IsValue n) → IsItem ⟨loc, .defineGlobal binder init⟩
  | empty {loc : Loc} : IsItem ⟨loc, .empty⟩
  | function {loc loc' : Loc} {name : String} {returns : TypeRef} {params : List Node} {inlined declaration : Bool}
      {body : Option Node} :
      IsName name → IsName returns.name → (∀ p ∈ params, IsParameter p) → (∀ b, body = some b → IsStatement b) →
      (∀ b, body = some b → b.isBlock = true) → declaration = body.isNone →
      IsItem ⟨loc, .function ⟨loc', .prototype name returns params inlined⟩ body declaration⟩

end Node

/-! ## Words -/

namespace Scan

/-- A token as the scanner makes it: a name is a word and no keyword, and a byte is in range. -/
structure Spelled (t : Token) : Prop where
  name : ∀ name, t.kind = .ident name → IsName name
  byte : ∀ b, t.kind = .byte b → b < 256

/-- What starts a word may go on with it. -/
theorem continuesWord_of_startsWord {c : Char} (h : Text.startsWord c = true) : Text.continuesWord c = true := by
  unfold Text.startsWord at h
  unfold Text.continuesWord
  rcases Bool.or_eq_true_iff.mp h with h | h <;> simp [h]

/-- A kind that is neither a name nor a byte. -/
def IsOther (k : Kind) : Prop :=
  (∀ name, k ≠ .ident name) ∧ ∀ b, k ≠ .byte b

theorem IsOther.spelled {k : Kind} (h : IsOther k) (loc : Loc) : Spelled ⟨k, loc⟩ :=
  ⟨fun name hk => absurd hk (h.1 name), fun b hk => absurd hk (h.2 b)⟩

theorem isOther_operator (c : Char) (cs : List Char) : IsOther (operator c cs).1 := by
  unfold operator
  split
  · simp [IsOther]
  · split <;> simp [IsOther]

theorem isOther_integerKind (base : Nat) (digits : List Char) (text : String) : IsOther (integerKind base digits text) := by
  unfold integerKind
  dsimp only
  split <;> simp [IsOther]

theorem isOther_number (c : Char) (cs : List Char) : IsOther (number c cs).1 := by
  have hscaled : ∀ digits places negative power, IsOther (decimalLiteral.scaled digits places negative power) := by
    intro digits places negative power
    unfold decimalLiteral.scaled
    split <;> simp [IsOther]
  have hhex : ∀ cs, IsOther (hexLiteral cs).1 := by
    intro cs
    unfold hexLiteral
    dsimp only
    split
    · simp [IsOther]
    · exact isOther_integerKind _ _ _
  unfold number
  split
  · exact hhex _
  · exact hhex _
  · unfold decimalLiteral
    dsimp only
    split
    · split
      · exact hscaled _ _ _ _
      · dsimp only
        exact hscaled _ _ _ _
    · split
      · exact hscaled _ _ _ _
      · exact isOther_integerKind _ _ _

/-- A word is a keyword, or a name. -/
theorem word_spelled {name : String} (h : IsWord name) (loc : Loc) : Spelled ⟨word name, loc⟩ := by
  unfold word
  split
  · exact IsOther.spelled (by simp [IsOther]) loc
  · rename_i hfree
    refine ⟨fun name' hk => ?_, fun b hk => ?_⟩
    · cases hk
      exact ⟨h, hfree⟩
    · cases hk

theorem byteKind_spelled (c : Char) (loc : Loc) : Spelled ⟨byteKind c, loc⟩ := by
  unfold byteKind
  split
  · rename_i hlt
    refine ⟨fun name hk => ?_, fun b hk => ?_⟩
    · cases hk
    · cases hk
      exact hlt
  · exact IsOther.spelled (by simp [IsOther]) loc

theorem lexeme_spelled (c : Char) (cs : List Char) (loc : Loc) : Spelled ⟨(lexeme c cs).1, loc⟩ := by
  unfold lexeme
  split
  · exact IsOther.spelled (by simp [IsOther]) loc
  · exact byteKind_spelled _ loc
  · split
    · rename_i hstart
      refine word_spelled ⟨by simp, fun d hd => ?_⟩ loc
      rw [String.toList_ofList] at hd
      rcases List.mem_cons.mp hd with rfl | hd
      · exact continuesWord_of_startsWord hstart
      · exact List.mem_takeWhile_imp hd
    · split
      · exact (isOther_number c cs).spelled loc
      · split
        · exact IsOther.spelled (by simp [IsOther]) loc
        · split
          · exact IsOther.spelled (by simp [IsOther]) loc
          · exact (isOther_operator c cs).spelled loc

theorem tokens_spelled (loc : Loc) (owned : Nat) (cs : List Char) : ∀ t ∈ tokens loc owned cs, Spelled t := by
  induction cs generalizing loc owned with
  | nil =>
    intro t ht
    obtain rfl := List.mem_singleton.mp ht
    exact IsOther.spelled (by simp [IsOther]) loc
  | cons c cs ih =>
    cases owned with
    | succ owned => simpa [tokens] using ih _ _
    | zero =>
      unfold tokens
      split
      · exact ih _ _
      · intro t ht
        rcases List.mem_cons.mp ht with rfl | ht
        · exact lexeme_spelled c cs loc
        · exact ih _ _ t ht

/-- The tokens of a source end with its end. -/
theorem tokens_ne_nil (loc : Loc) (owned : Nat) (cs : List Char) : tokens loc owned cs ≠ [] := by
  induction cs generalizing loc owned with
  | nil => simp [tokens]
  | cons c cs ih =>
    cases owned with
    | succ owned => simpa [tokens] using ih _ _
    | zero =>
      unfold tokens
      split
      · exact ih _ _
      · exact List.cons_ne_nil _ _

end Scan

/-! ## Parsers -/

/-- The fault is that a token was not expected. -/
def Fault.IsSyntax (f : Fault) : Prop :=
  ∃ expected got loc, f = .unexpected expected got loc

namespace Parser

variable {σ α β : Type} {Q : α → Prop}

/-- The row of tokens has an end, and its tokens are as the scanner makes them. -/
structure Spelled (r : Reading σ) : Prop where
  ended : r.tokens ≠ []
  tokens : ∀ t ∈ r.tokens, Scan.Spelled t

/-- What a parser yields when it reads tokens of the scanner, unless it finds a token that it did not expect. The tokens that it leaves
are such, too. -/
def Yields (p : Parser σ α) (Q : α → Prop) : Prop :=
  ∀ r, Spelled r → match p r with
    | .ok (a, r') => Spelled r' ∧ Q a
    | .error f => f.IsSyntax

variable {p : Parser σ α} {Q' : β → Prop}

theorem Yields.bind {next : α → Parser σ β} (h : p.Yields Q) (hnext : ∀ a, Q a → (next a).Yields Q') : (p >>= next).Yields Q' := by
  intro r hr
  have hp := h r hr
  show match (p r).bind fun (a, r') => next a r' with
    | .ok (b, r'') => Spelled r'' ∧ Q' b
    | .error f => f.IsSyntax
  cases hrun : p r with
  | error f => simpa [hrun, Except.bind] using hp
  | ok x =>
    rw [hrun] at hp
    exact hnext x.1 hp.2 x.2 hp.1

theorem Yields.mono {Q' : α → Prop} (h : p.Yields Q) (hQ : ∀ a, Q a → Q' a) : p.Yields Q' := by
  intro r hr
  have hp := h r hr
  split <;> simp_all

theorem yields_pure {a : α} (h : Q a) : (pure a : Parser σ α).Yields Q :=
  fun _ hr => ⟨hr, h⟩

theorem yields_ite {c : Prop} [Decidable c] {q : Parser σ α} (hp : p.Yields Q) (hq : q.Yields Q) : (if c then p else q).Yields Q := by
  split
  · exact hp
  · exact hq

theorem yields_get : (get : Parser σ (Reading σ)).Yields Spelled :=
  fun _ hr => ⟨hr, hr⟩

theorem yields_unexpected (expected : Expectation) (got : Finding) (loc : Loc) :
    (throw (.unexpected expected got loc) : Parser σ α).Yields Q :=
  fun _ _ => ⟨expected, got, loc, rfl⟩

theorem yields_current : (current : Parser σ Token).Yields Scan.Spelled := by
  refine yields_get.bind fun r hr => ?_
  split
  · rename_i t rest ht
    exact yields_pure (hr.tokens t (ht ▸ List.mem_cons_self))
  · rename_i ht
    exact absurd ht hr.ended

theorem yields_advance : (advance : Parser σ Token).Yields fun _ => True := by
  refine yields_get.bind fun r hr => ?_
  split
  · rename_i t u rest ht
    refine Yields.bind (Q := fun _ => True) (fun r' hr' => ⟨⟨List.cons_ne_nil _ _, fun v hv => ?_⟩, trivial⟩) fun _ _ =>
      yields_pure trivial
    exact hr.tokens v (ht ▸ List.mem_cons_of_mem t hv)
  · exact yields_pure trivial
  · rename_i ht
    exact absurd ht hr.ended

theorem yields_map {g : α → β} (h : p.Yields Q) (hg : ∀ a, Q a → Q' (g a)) : (g <$> p).Yields Q' :=
  h.bind fun a ha => yields_pure (hg a ha)

theorem yields_here : (here : Parser σ Loc).Yields fun _ => True :=
  yields_current.bind fun _ _ => yields_pure trivial

theorem yields_at (k : Kind) : (at? k : Parser σ Bool).Yields fun _ => True :=
  yields_current.bind fun _ _ => yields_pure trivial

theorem yields_atEnd : (atEnd : Parser σ Bool).Yields fun _ => True :=
  yields_at _

/-- One of two parts, by a test, read before `next`. -/
theorem yields_choice {test : Parser σ Bool} {q : Parser σ α} {next : α → Parser σ β} (htest : test.Yields fun _ => True)
    (hp : p.Yields Q) (hq : q.Yields Q) (hnext : ∀ a, Q a → (next a).Yields Q') :
    (do if ← test then next (← p) else next (← q) : Parser σ β).Yields Q' :=
  htest.bind fun _ _ => yields_ite (hp.bind hnext) (hq.bind hnext)

theorem yields_none : (pure none : Parser σ (Option α)).Yields fun x => ∀ a, x = some a → Q a :=
  yields_pure fun _ h => by cases h

theorem yields_some (h : p.Yields Q) : (some <$> p).Yields fun x => ∀ a, x = some a → Q a :=
  yields_map h fun a ha b hb => by cases hb; exact ha

theorem yields_second : (second? : Parser σ (Option Kind)).Yields fun _ => True :=
  yields_get.bind fun s _ => by split <;> exact yields_pure trivial

theorem yields_fail (expected : Expectation) : (fail expected : Parser σ α).Yields Q :=
  yields_current.bind fun _ _ => yields_unexpected _ _ _

theorem yields_outOfRange (digits : String) : (outOfRange digits : Parser σ α).Yields Q :=
  yields_here.bind fun _ _ => yields_unexpected _ _ _

theorem yields_expect (k : Kind) : (expect k : Parser σ Token).Yields fun _ => True :=
  (yields_at k).bind fun _ _ => yields_ite yields_advance (yields_fail _)

theorem yields_consume (k : Kind) : (consume k : Parser σ Bool).Yields fun _ => True :=
  (yields_at k).bind fun _ _ => yields_ite (yields_advance.bind fun _ _ => yields_pure trivial) (yields_pure trivial)

theorem yields_identifier (expected : Expectation) : (identifier expected : Parser σ String).Yields IsName := by
  refine yields_current.bind fun t ht => ?_
  split
  · rename_i name hname
    exact yields_advance.bind fun _ _ => yields_pure (ht.name name hname)
  · exact yields_fail _

theorem yields_typeRef : (typeRef : Parser σ TypeRef).Yields fun type => IsName type.name :=
  yields_here.bind fun _ _ => (yields_consume _).bind fun _ _ => (yields_identifier _).bind fun _ h => yields_pure h

theorem yields_typeAnnotation : (typeAnnotation? : Parser σ (Option TypeRef)).Yields fun type => ∀ t, type = some t → IsName t.name := by
  refine (yields_consume _).bind fun _ _ => yields_ite (yields_typeRef.bind fun type h => yields_pure ?_) (yields_pure ?_)
  · rintro t ⟨⟩
    exact h
  · rintro t ⟨⟩

end Parser

namespace Parser

open Node

/-! ## Trees

What the parsers of trees yield. A tree that was made is handed on as it is.
-/

section Tree

variable {Q : Node → Prop}

theorem yields_make {loc : Loc} {form : Form Node} (h : Q ⟨loc, form⟩) : (make loc form : Parser Forest Node).Yields Q :=
  fun _ hr => ⟨⟨hr.ended, hr.tokens⟩, h⟩

theorem yields_change {n : Node} {loc : Option Loc} {form : Form Node} (h : Q ⟨loc.getD n.loc, form⟩) :
    (change n loc form : Parser Forest Node).Yields Q :=
  fun _ hr => ⟨⟨hr.ended, hr.tokens⟩, h⟩

theorem yields_formOf (n : Node) : (formOf n : Parser Forest (Form Node)).Yields (· = n.form) :=
  yields_get.bind fun _ _ => yields_pure rfl

theorem yields_asTarget {n : Node} (h : n.IsValue) :
    (asTarget n : Parser Forest Node).Yields fun n => n.IsExpression ∧ n.isVariable = false := by
  obtain ⟨loc, form⟩ := n
  refine (yields_formOf _).bind fun form' hform => ?_
  obtain rfl : form' = form := hform
  cases form' with
  | «variable» name =>
    cases h.expression with
    | «variable» hname => exact yields_change ⟨.identifier hname, rfl⟩
    | literal hl => cases hl
  | _ => exact yields_pure ⟨h.expression, rfl⟩

theorem yields_prefixed {operand : Node} (h : operand.IsValue) (loc : Loc) {op : Operator} (hop : ∃ m : Mark, m.unary? = some op) :
    (prefixed loc op operand : Parser Forest Node).Yields IsValue := by
  refine (yields_formOf operand).bind fun form hform => ?_
  split
  · exact yields_change ⟨.literal rfl trivial, rfl⟩
  · exact yields_change ⟨.literal rfl trivial, rfl⟩
  · rename_i hint hfloat
    refine yields_make ⟨.unary h.expression h.plain hop fun hminus => ?_, rfl⟩
    obtain ⟨loc', form'⟩ := operand
    obtain rfl : form = form' := hform
    cases form with
    | integer n => exact absurd rfl (hint n hminus)
    | floating x => exact absurd rfl (hfloat x hminus)
    | _ => rfl

/-- The parsers of expressions with some fuel yield expressions. -/
structure ExpressionsUpTo (fuel : Nat) : Prop where
  expr : ∀ least, (expr fuel least : Parser Forest Node).Yields IsValue
  operators : ∀ least left, left.IsValue → (operators fuel least left : Parser Forest Node).Yields IsValue
  unary : (unary fuel : Parser Forest Node).Yields IsValue
  suffixed : (suffixed fuel : Parser Forest Node).Yields IsValue
  suffixes : ∀ operand, operand.IsValue → (suffixes fuel operand : Parser Forest Node).Yields IsValue
  arguments : (arguments fuel : Parser Forest (List Node)).Yields fun args => ∀ a ∈ args, a.IsValue
  primary : (primary fuel : Parser Forest Node).Yields IsValue

theorem expressionsUpTo (fuel : Nat) : ExpressionsUpTo fuel := by
  induction fuel with
  | zero =>
    exact ⟨fun _ => yields_fail _, fun _ _ _ => yields_fail _, yields_fail _, yields_fail _, fun _ _ => yields_fail _,
      yields_fail _, yields_fail _⟩
  | succ fuel ih =>
    refine ⟨fun least => ?_, fun least left hleft => ?_, ?_, ?_, fun operand hoperand => ?_, ?_, ?_⟩
    · exact ih.unary.bind fun left hleft => ih.operators least left hleft
    · refine yields_current.bind fun t _ => ?_
      split
      · refine yields_ite (yields_pure hleft) ?_
        exact yields_advance.bind fun _ _ => yields_typeRef.bind fun type htype =>
          (yields_make ⟨.cast hleft.expression hleft.plain htype, rfl⟩).bind fun _ h => ih.operators least _ h
      · rename_i m hm
        split
        · exact yields_pure hleft
        · rename_i power op hop
          refine yields_ite (yields_pure hleft) (yields_advance.bind fun _ _ => ?_)
          split
          · rename_i hpower
            exact (ih.expr _).bind fun value hvalue => (yields_asTarget hleft).bind fun target htarget =>
              (yields_make ⟨.assign htarget.1 htarget.2 hvalue.expression hvalue.plain ⟨m, hpower ▸ hop⟩, rfl⟩).bind fun _ h =>
                ih.operators least _ h
          · rename_i hpower
            exact (ih.expr _).bind fun right hright =>
              (yields_make ⟨.binary hleft.expression hleft.plain hright.expression hright.plain ⟨m, power, hop, hpower⟩, rfl⟩).bind
                fun _ h => ih.operators least _ h
      · exact yields_pure hleft
    · refine yields_current.bind fun t _ => ?_
      split
      · rename_i m hm
        split
        · exact ih.suffixed
        · rename_i op hop
          refine yields_advance.bind fun _ _ => (yields_at _).bind fun _ _ => yields_ite ?_ ?_
          · exact yields_advance.bind fun _ _ => yields_make ⟨.literal rfl trivial, rfl⟩
          · exact ih.unary.bind fun operand hoperand => yields_prefixed hoperand t.loc ⟨m, hop⟩
      · exact ih.suffixed
    · exact ih.primary.bind fun operand hoperand => ih.suffixes operand hoperand
    · refine yields_here.bind fun loc _ => (yields_consume _).bind fun _ _ => yields_ite ?_ ?_
      · exact ih.arguments.bind fun args hargs => (yields_expect _).bind fun _ _ =>
          (yields_asTarget hoperand).bind fun callee hcallee =>
          (yields_make ⟨.call hcallee.1 hcallee.2 (fun a ha => (hargs a ha).expression) fun a ha => (hargs a ha).plain, rfl⟩).bind
            fun _ h => ih.suffixes _ h
      · refine (yields_consume _).bind fun _ _ => yields_ite ?_ ?_
        · exact (yields_identifier _).bind fun name hname =>
            (yields_make ⟨.member hoperand.expression hoperand.plain hname, rfl⟩).bind fun _ h => ih.suffixes _ h
        · refine (yields_consume _).bind fun _ _ => yields_ite ?_ (yields_pure hoperand)
          refine yields_choice (yields_at _) yields_none (yields_some (ih.expr 0)) fun first hfirst =>
            (yields_consume _).bind fun _ _ => yields_ite ?_ ?_
          · refine yields_choice (yields_at _) yields_none (yields_some (ih.expr 0)) fun last hlast =>
              (yields_expect _).bind fun _ _ => ?_
            exact (yields_make ⟨.slice hoperand.expression hoperand.plain (fun n hn => (hfirst n hn).expression)
              (fun n hn => (hfirst n hn).plain) (fun n hn => (hlast n hn).expression) fun n hn => (hlast n hn).plain, rfl⟩).bind
                fun _ h => ih.suffixes _ h
          · split
            · exact yields_fail _
            · rename_i index
              have hindex := hfirst index rfl
              exact (yields_expect _).bind fun _ _ =>
                (yields_make ⟨.subscript hoperand.expression hoperand.plain hindex.expression hindex.plain, rfl⟩).bind fun _ h =>
                  ih.suffixes _ h
    · refine (yields_at _).bind fun _ _ => yields_atEnd.bind fun _ _ => yields_ite (yields_pure ?_) ?_
      · exact nofun
      · refine (ih.expr 0).bind fun arg harg => (yields_consume _).bind fun _ _ => yields_ite ?_ (yields_pure ?_)
        · exact ih.arguments.bind fun args hargs => yields_pure (List.forall_mem_cons.mpr ⟨harg, hargs⟩)
        · exact List.forall_mem_singleton.mpr harg
    · have hleaf : ∀ (loc : Loc) (form : Form Node), IsValue ⟨loc, form⟩ →
          Yields (do let _ ← advance; make loc form : Parser Forest Node) IsValue :=
        fun loc form h => yields_advance.bind fun _ _ => yields_make h
      refine yields_current.bind fun t ht => ?_
      obtain ⟨kind, loc⟩ := t
      cases kind with
      | integer n => exact yields_ite (hleaf _ _ ⟨.literal rfl trivial, rfl⟩) (yields_outOfRange _)
      | oversized digits => exact yields_outOfRange _
      | keyword k =>
        cases k with
        | trueKw | falseKw | noneKw => exact hleaf _ _ ⟨.literal rfl trivial, rfl⟩
        | _ => exact yields_fail _
      | mark m =>
        cases m with
        | lParen =>
          exact yields_advance.bind fun _ _ => (ih.expr 0).bind fun inner hinner => (yields_expect _).bind fun _ _ =>
            yields_pure hinner
        | _ => exact yields_fail _
      | ident name => exact hleaf _ _ ⟨.variable (ht.name name rfl), rfl⟩
      | character c => exact hleaf _ _ ⟨.literal rfl c.valid, rfl⟩
      | byte b => exact hleaf _ _ ⟨.literal rfl (ht.byte b rfl), rfl⟩
      | unknown | endOfFile => exact yields_fail _
      | _ => exact hleaf _ _ ⟨.literal rfl trivial, rfl⟩

theorem yields_expression (fuel : Nat) : (expression fuel : Parser Forest Node).Yields IsValue :=
  (expressionsUpTo fuel).expr 0

/-- A definition without its semicolon. -/
theorem yields_definition (fuel : Nat) (global : Bool) : (definition fuel global : Parser Forest Node).Yields fun n =>
    ∃ loc binder init, n = ⟨loc, if global then .defineGlobal binder init else .define binder init⟩ ∧
      binder.Declared ∧ ∀ e, init = some e → IsValue e := by
  refine yields_advance.bind fun keyword _ => (yields_consume _).bind fun marked _ => (yields_identifier _).bind fun name hname =>
    yields_typeAnnotation.bind fun type htype => ?_
  refine yields_choice (yields_consume _) (yields_some (yields_expression fuel)) yields_none fun init hinit => yields_make ?_
  exact ⟨_, _, init, rfl, ⟨hname, htype, rfl, fun hm => by simp [hm]⟩, hinit⟩

theorem yields_absentAt {part : Parser Forest Node} (k : Kind) (h : part.Yields Q) :
    (absentAt k part).Yields fun n => ∀ e, n = some e → Q e := by
  refine (yields_at k).bind fun _ _ => yields_ite (yields_pure ?_) (h.bind fun n hn => yields_pure ?_)
  · rintro e ⟨⟩
  · rintro e ⟨⟩
    exact hn

theorem yields_returnStatement (fuel : Nat) : (returnStatement fuel : Parser Forest Node).Yields IsStatement :=
  (yields_expect _).bind fun _ _ => (yields_absentAt _ (yields_expression fuel)).bind fun _ hvalue =>
    (yields_expect _).bind fun _ _ => yields_make (.ret hvalue)

theorem yields_definitionStatement (fuel : Nat) : (definitionStatement fuel false : Parser Forest Node).Yields IsStatement := by
  refine (yields_definition fuel false).bind fun n hn => (yields_expect _).bind fun _ _ => yields_pure ?_
  obtain ⟨loc, binder, init, rfl, hb, hi⟩ := hn
  exact .define hb hi

theorem yields_loopInit (fuel : Nat) : (loopInit fuel : Parser Forest Node).Yields IsSimple := by
  have hdefinition : (definition fuel false : Parser Forest Node).Yields IsSimple := by
    refine (yields_definition fuel false).mono fun n hn => ?_
    obtain ⟨loc, binder, init, rfl, hb, hi⟩ := hn
    exact .define hb hi
  refine yields_current.bind fun t _ => ?_
  split
  · exact hdefinition
  · exact hdefinition
  · exact (yields_expression fuel).mono fun _ h => .value h

theorem yields_atForEach : (atForEach : Parser Forest Bool).Yields fun _ => True :=
  yields_current.bind fun _ _ => yields_second.bind fun _ _ => by split <;> exact yields_pure trivial

/-- The parsers of statements with some fuel yield statements. -/
structure StatementsUpTo (fuel : Nat) : Prop where
  block : (block fuel : Parser Forest Node).Yields fun n => n.IsStatement ∧ n.isBlock = true
  statements : (statements fuel : Parser Forest (List Node)).Yields fun stmts => ∀ n ∈ stmts, n.IsStatement
  statement : (statement fuel : Parser Forest Node).Yields IsStatement
  branch : (branch fuel : Parser Forest Node).Yields fun n => n.IsStatement ∧ n.isBranch = true
  whileStatement : (whileStatement fuel : Parser Forest Node).Yields IsStatement
  forStatement : (forStatement fuel : Parser Forest Node).Yields IsStatement

theorem statementsUpTo (fuel : Nat) : StatementsUpTo fuel := by
  induction fuel with
  | zero =>
    exact ⟨yields_fail _, yields_fail _, yields_fail _, yields_fail _, yields_fail _, yields_fail _⟩
  | succ fuel ih =>
    refine ⟨?_, ?_, ?_, ?_, ?_, ?_⟩
    · exact (yields_expect _).bind fun _ _ => ih.statements.bind fun stmts hstmts => (yields_expect _).bind fun _ _ =>
        yields_make ⟨.block hstmts, rfl⟩
    · refine (yields_at _).bind fun _ _ => yields_atEnd.bind fun _ _ => yields_ite (yields_pure ?_) ?_
      · exact nofun
      · exact ih.statement.bind fun stmt hstmt => ih.statements.bind fun stmts hstmts =>
          yields_pure (List.forall_mem_cons.mpr ⟨hstmt, hstmts⟩)
    · refine yields_current.bind fun t _ => ?_
      split
      · exact yields_definitionStatement fuel
      · exact yields_definitionStatement fuel
      · exact ih.branch.mono fun _ h => h.1
      · exact ih.whileStatement
      · exact ih.forStatement
      · exact yields_returnStatement fuel
      · exact ih.block.mono fun _ h => h.1
      · exact yields_advance.bind fun _ _ => yields_make .empty
      · exact (yields_expression fuel).bind fun e he => (yields_expect _).bind fun _ _ => yields_make (.expression he)
    · refine (yields_expect _).bind fun _ _ => (yields_expression fuel).bind fun cond hcond => ih.block.bind fun yes hyes =>
        (yields_consume _).bind fun _ _ => yields_ite ?_ (yields_make ⟨.branch hcond hyes.1 hyes.2 ?_ ?_, rfl⟩)
      · refine yields_choice (Q := fun n => n.IsStatement ∧ (n.isBlock = true ∨ n.isBranch = true)) (yields_at _)
          (ih.branch.mono fun _ h => ⟨h.1, .inr h.2⟩) (ih.block.mono fun _ h => ⟨h.1, .inl h.2⟩) fun no hno =>
          yields_make ⟨.branch hcond hyes.1 hyes.2 ?_ ?_, rfl⟩
        · rintro n ⟨⟩
          exact hno.1
        · rintro n ⟨⟩
          exact hno.2
      · rintro n ⟨⟩
      · rintro n ⟨⟩
    · exact (yields_expect _).bind fun _ _ => (yields_expression fuel).bind fun cond hcond => ih.block.bind fun body hbody =>
        yields_make (.whileLoop hcond hbody.1 hbody.2)
    · refine (yields_expect _).bind fun _ _ => yields_atForEach.bind fun _ _ => yields_ite ?_ ?_
      · refine yields_here.bind fun loc _ => (yields_identifier _).bind fun name hname => (yields_expect _).bind fun _ _ => ?_
        refine Yields.bind (Q := (· = ⟨loc, .define { name, type := none, inferred := true, mutable := false } none⟩))
          (yields_make rfl) fun iterator hiterator => ?_
        subst hiterator
        exact (yields_expression fuel).bind fun _ hiteratee => ih.block.bind fun _ hbody =>
          yields_make (.forEach hname hiteratee hbody.1 hbody.2)
      · exact (yields_absentAt _ (yields_loopInit fuel)).bind fun init hinit => (yields_expect _).bind fun _ _ =>
          (yields_absentAt _ (yields_expression fuel)).bind fun cond hcond => (yields_expect _).bind fun _ _ =>
          (yields_absentAt _ (yields_expression fuel)).bind fun step hstep => ih.block.bind fun body hbody =>
          yields_make (.forLoop hinit hcond hstep hbody.1 hbody.2)

/-! ## Items -/

theorem yields_passMode : (passMode : Parser Forest PassMode).Yields fun _ => True := by
  refine yields_current.bind fun t _ => ?_
  split
  · exact yields_advance.bind fun _ _ => yields_pure trivial
  · exact yields_advance.bind fun _ _ => yields_pure trivial
  · exact yields_advance.bind fun _ _ => yields_pure trivial
  · exact yields_pure trivial

theorem yields_parameter : (parameter : Parser Forest Node).Yields IsParameter := by
  refine yields_here.bind fun loc _ => yields_passMode.bind fun mode _ => yields_here.bind fun loc' _ =>
    (yields_identifier _).bind fun name hname => yields_typeAnnotation.bind fun type htype => ?_
  refine Yields.bind (Q := (· = ⟨loc', .define { name, type, inferred := type.isNone, mutable := mode = .ref || type.any (·.mutable) } none⟩))
    (yields_make rfl) fun definition hdefinition => ?_
  subst hdefinition
  exact yields_make (.mk ⟨hname, htype, rfl, fun hm => by simp [hm]⟩ rfl)

theorem yields_parameters (fuel : Nat) : (parameters fuel : Parser Forest (List Node)).Yields fun params => ∀ p ∈ params, IsParameter p := by
  induction fuel with
  | zero => exact yields_fail _
  | succ fuel ih =>
    refine (yields_at _).bind fun _ _ => yields_atEnd.bind fun _ _ => yields_ite (yields_pure ?_) ?_
    · exact nofun
    · refine yields_parameter.bind fun p hp => (yields_consume _).bind fun _ _ => yields_ite ?_ (yields_pure ?_)
      · exact ih.bind fun ps hps => yields_pure (List.forall_mem_cons.mpr ⟨hp, hps⟩)
      · exact List.forall_mem_singleton.mpr hp

theorem isName_void : IsName "void" :=
  ⟨isWord_iff.mpr (by decide +kernel), by decide +kernel⟩

theorem yields_function (fuel : Nat) : (function fuel : Parser Forest Node).Yields IsItem := by
  refine yields_here.bind fun loc _ => (yields_consume _).bind fun inlined _ => (yields_expect _).bind fun _ _ =>
    (yields_identifier _).bind fun name hname => (yields_expect _).bind fun _ _ => (yields_parameters fuel).bind fun params hparams =>
    (yields_expect _).bind fun _ _ => yields_typeAnnotation.bind fun type htype => ?_
  have hrest : ∀ returns : TypeRef, IsName returns.name → Yields (do
      let head ← make loc (.prototype name returns params inlined)
      if ← consume (.mark .semicolon) then make loc (.function head none true)
      else
        let body ← block fuel
        make loc (.function head (some body) false) : Parser Forest Node) IsItem := by
    intro returns hreturns
    refine Yields.bind (Q := (· = ⟨loc, .prototype name returns params inlined⟩)) (yields_make rfl) fun head hhead => ?_
    subst hhead
    refine (yields_consume _).bind fun _ _ => yields_ite (yields_make (.function hname hreturns hparams ?_ ?_ rfl)) ?_
    · rintro b ⟨⟩
    · rintro b ⟨⟩
    · refine (statementsUpTo fuel).block.bind fun body hbody => yields_make (.function hname hreturns hparams ?_ ?_ rfl)
      · rintro b ⟨⟩
        exact hbody.1
      · rintro b ⟨⟩
        exact hbody.2
  split
  · exact (yields_pure (Q := fun t : TypeRef => IsName t.name) (htype _ rfl)).bind hrest
  · exact yields_here.bind fun here _ => (yields_pure (Q := fun t : TypeRef => IsName t.name) isName_void).bind hrest

theorem yields_dottedName (parts : Nat) : (dottedName parts : Parser Forest String).Yields IsDotted := by
  have hone : ∀ name, IsName name → IsDotted name := fun name h => ⟨[name], by simp, by simpa using h, rfl⟩
  induction parts with
  | zero => exact (yields_identifier _).mono hone
  | succ parts ih =>
    refine (yields_identifier _).bind fun name hname => (yields_consume _).bind fun _ _ => yields_ite ?_ (yields_pure (hone name hname))
    refine ih.bind fun rest hrest => yields_pure ?_
    obtain ⟨names, hne, hnames, rfl⟩ := hrest
    refine ⟨name :: names, by simp, List.forall_mem_cons.mpr ⟨hname, hnames⟩, ?_⟩
    cases names with
    | nil => exact absurd rfl hne
    | cons => rfl

theorem yields_importItem (fuel : Nat) : (importItem fuel : Parser Forest Node).Yields IsItem := by
  refine (yields_expect _).bind fun t _ => (yields_consume _).bind fun _ _ => yields_ite ?_
    ((yields_consume _).bind fun _ _ => yields_ite ?_ ?_)
  -- the kinds of imports differ in the words before the target only
  all_goals
    refine (yields_pure (Q := fun _ => True) trivial).bind fun kind _ => yields_current.bind fun t _ => ?_
    split
    · exact yields_advance.bind fun _ _ => (yields_pure (Q := (· = (_, true))) rfl).bind fun _ htarget => by
        subst htarget
        exact (yields_expect _).bind fun _ _ => yields_make (.importUnit fun h => by cases h)
    · exact (yields_dottedName fuel).bind fun name hname => (yields_pure (Q := (· = (name, false))) rfl).bind fun _ htarget => by
        subst htarget
        exact (yields_expect _).bind fun _ _ => yields_make (.importUnit fun _ => hname)

theorem yields_item (fuel : Nat) : (item fuel : Parser Forest Node).Yields IsItem := by
  have hglobal : (definitionStatement fuel true : Parser Forest Node).Yields IsItem := by
    refine (yields_definition fuel true).bind fun n hn => (yields_expect _).bind fun _ _ => yields_pure ?_
    obtain ⟨loc, binder, init, rfl, hb, hi⟩ := hn
    exact .defineGlobal hb hi
  refine yields_current.bind fun t _ => ?_
  split
  · exact yields_function fuel
  · exact yields_function fuel
  · exact hglobal
  · exact hglobal
  · exact yields_importItem fuel
  · exact (yields_expect _).bind fun _ _ => (yields_dottedName fuel).bind fun _ hname => (yields_expect _).bind fun _ _ =>
      yields_make (.nameUnit hname)
  · exact (yields_expect _).bind fun _ _ => (yields_identifier _).bind fun name hname => (yields_expect _).bind fun _ _ =>
      yields_typeRef.bind fun target htarget => (yields_expect _).bind fun _ _ => yields_make (.alias hname htarget)
  · exact yields_advance.bind fun _ _ => yields_make .empty
  · exact yields_fail _

theorem yields_itemList (fuel count : Nat) : (itemList fuel count : Parser Forest (List Node)).Yields fun items => ∀ n ∈ items, IsItem n := by
  induction count with
  | zero => exact yields_fail _
  | succ count ih =>
    refine yields_atEnd.bind fun _ _ => yields_ite (yields_pure nofun) ?_
    exact (yields_item fuel).bind fun i hi => ih.bind fun items hitems =>
      yields_pure (List.forall_mem_cons.mpr ⟨hi, hitems⟩)

end Tree

end Parser

/-- A source has tokens as the scanner makes them. -/
theorem Parser.spelled_scan {σ : Type} (source : String) (store : σ) : Parser.Spelled { tokens := Token.scan source, store } :=
  ⟨Scan.tokens_ne_nil _ _ _, Scan.tokens_spelled _ _ _⟩

/-- The tree of a row of tokens has the items that the parser finds. -/
theorem Node.ofTokens_eq (tokens : List Token) : Node.ofTokens tokens =
    ((Parser.itemList (8 * (tokens.length + 1)) (8 * (tokens.length + 1)) : Parser Forest (List Node)) { tokens, store := () }).map
      fun r => ⟨.start, .block r.1⟩ := by
  unfold Node.ofTokens NodeStore.itemsOf StateT.run
  dsimp only
  cases (Parser.itemList _ _ : Parser Forest (List Node)) { tokens, store := () } <;> rfl

/-- A source is parsed to a block of items, unless there is a token that is not expected. -/
theorem Node.parse_cases (source : String) :
    (∃ n, Node.parse source = .ok n ∧ ∀ i ∈ n.items, i.IsItem) ∨ ∃ f, Node.parse source = .error f ∧ f.IsSyntax := by
  have h := Parser.yields_itemList (8 * ((Token.scan source).length + 1)) (8 * ((Token.scan source).length + 1)) _
    (Parser.spelled_scan source ())
  rw [Node.parse, Node.ofTokens_eq]
  split at h
  · rename_i items r' hrun
    exact .inl ⟨⟨.start, .block items⟩, by rw [hrun]; rfl, h.2⟩
  · rename_i f hrun
    exact .inr ⟨f, by rw [hrun]; rfl, h⟩

/-- The tree of a source is a block of items. -/
theorem Node.isItem_of_parse {source : String} {n : Node} (h : Node.parse source = .ok n) : ∀ i ∈ n.items, i.IsItem := by
  rcases Node.parse_cases source with ⟨n', hn', hitems⟩ | ⟨f, hf, -⟩
  · cases h.symm.trans hn'
    exact hitems
  · cases h.symm.trans hf

end Ember
