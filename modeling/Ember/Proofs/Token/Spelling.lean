import Ember.Proofs.Token.Location
import Std.Data.String.ToNat

/-!
# Spelling tokens

A token is spelled as a source writes it, and separators (blanks and comments that start with a blank) are put between tokens. The
scan undoes this, for every row of tokens and every choice of separators (`scan_spread`). What follows a token never joins it, since
it starts with a blank or is the end of the source (`Apart`).

The scan refuses nothing: a text, a character or a comment that stands open is read as if it was closed (`scan_open`).
-/

namespace Ember

open Scan

/-! ## Spelling -/

/-- The mark as a source writes it. -/
def Mark.spelling : Mark → List Char
  | .plus => ['+']
  | .minus => ['-']
  | .star => ['*']
  | .slash => ['/']
  | .percent => ['%']
  | .eq => ['=']
  | .eqEq => ['=', '=']
  | .ne => ['!', '=']
  | .lt => ['<']
  | .le => ['<', '=']
  | .gt => ['>']
  | .ge => ['>', '=']
  | .andAnd => ['&', '&']
  | .orOr => ['|', '|']
  | .not => ['!']
  | .and => ['&']
  | .or => ['|']
  | .caret => ['^']
  | .tilde => ['~']
  | .shl => ['<', '<']
  | .shr => ['>', '>']
  | .plusEq => ['+', '=']
  | .minusEq => ['-', '=']
  | .starEq => ['*', '=']
  | .slashEq => ['/', '=']
  | .percentEq => ['%', '=']
  | .dot => ['.']
  | .lParen => ['(']
  | .rParen => [')']
  | .lBrace => ['\x7b']
  | .rBrace => ['\x7d']
  | .lBracket => ['[']
  | .rBracket => [']']
  | .comma => [',']
  | .colon => [':']
  | .semicolon => [';']

/-- A character of a literal that is closed by a quote. -/
def escaped (quote c : Char) : List Char :=
  if c = '\\' ∨ c = quote then ['\\', c]
  else if c = '\n' then ['\\', 'n']
  else if c = '\t' then ['\\', 't']
  else if c = '\r' then ['\\', 'r']
  else if c = '\x00' then ['\\', '0']
  else [c]

/-- A name that a source can write: it starts and goes on as a word, and is no keyword. -/
def IsIdentifier (name : String) : Prop :=
  (∃ c cs, name.toList = c :: cs ∧ Text.startsWord c = true ∧ ∀ d ∈ cs, Text.continuesWord d = true) ∧ Keyword.ofWord? name = none

namespace Kind

/-- The token as a source writes it. -/
def spelling : Kind → List Char
  | .keyword k => k.spelling.toList
  | .mark m => m.spelling
  | .ident name => name.toList
  | .integer n => Nat.toDigits 10 n
  | .string s => '"' :: (s.toList.flatMap (escaped '"') ++ ['"'])
  | .cstring s => 'c' :: '"' :: (s.toList.flatMap (escaped '"') ++ ['"'])
  | .character c => '\'' :: (escaped '\'' c ++ ['\''])
  | .byte b => 'b' :: '\'' :: (escaped '\'' (Char.ofNat b) ++ ['\''])
  | _ => []

/-- The tokens that are spelled here: all but floating-point numbers and what is wrong in a source. -/
def Spelled : Kind → Prop
  | .keyword _ | .mark _ | .string _ | .cstring _ | .character _ => True
  | .ident name => IsIdentifier name
  | .integer n => n < UInt64.size
  | .byte b => b < 256
  | _ => False

end Kind

/-! ## Separators -/

/-- Reading from left to right, with `depth` comments open, the last of them is closed at the end and not before. -/
inductive Closes : (depth : Nat) → List Char → Prop where
  | done : Closes 0 []
  | close {depth : Nat} {cs : List Char} : Closes depth cs → Closes (depth + 1) ('*' :: '/' :: cs)
  | nest {depth : Nat} {cs : List Char} : Closes (depth + 2) cs → Closes (depth + 1) ('/' :: '*' :: cs)
  | other {depth : Nat} {c : Char} {cs : List Char} : ¬(c = '*' ∧ cs.head? = some '/') → ¬(c = '/' ∧ cs.head? = some '*') →
      Closes (depth + 1) cs → Closes (depth + 1) (c :: cs)

/-- Blanks and comments. A line comment is closed by a line feed, a block comment by the end of the last comment in it. -/
inductive IsGap : List Char → Prop where
  | nil : IsGap []
  | blank {c : Char} {cs : List Char} : c ∈ [' ', '\t', '\r', '\n'] → IsGap cs → IsGap (c :: cs)
  | line {text cs : List Char} : '\n' ∉ text → IsGap cs → IsGap ('/' :: '/' :: (text ++ '\n' :: cs))
  | block {text cs : List Char} : Closes 1 text → IsGap cs → IsGap ('/' :: '*' :: (text ++ cs))

/-- Blanks and comments that start with a blank. -/
def IsSeparator (cs : List Char) : Prop :=
  IsGap cs ∧ ∃ c ∈ [' ', '\t', '\r', '\n'], cs.head? = some c

/-- Tokens with separators between them, each given with the separator that follows it; none follows the last. -/
def spread : List (Kind × List Char) → List Char
  | [] => []
  | [(kind, _)] => kind.spelling
  | (kind, separator) :: rest => kind.spelling ++ (separator ++ spread rest)

/-! ## Scanning gaps -/

/-- The rest of a source that cannot join a token before it. -/
def Apart (rest : List Char) : Prop :=
  ∀ c ∈ rest.head?, c ∈ [' ', '\t', '\r', '\n']

namespace Scan

variable {loc : Loc} {c : Char} {cs rest : List Char} {kind : Kind} {p : Char → Bool}

theorem tokens_owned (owned : List Char) : tokens loc owned.length (owned ++ rest) = tokens (loc.through owned) 0 rest := by
  induction owned generalizing loc with
  | nil => rfl
  | cons c owned ih => exact ih

/-- A gap is passed over. -/
theorem tokens_of_gap {width : Nat} (h : gap? c (cs ++ rest) = some width) (hwidth : width = cs.length) :
    tokens loc 0 (c :: (cs ++ rest)) = tokens (loc.through (c :: cs)) 0 rest := by
  rw [tokens, h]
  dsimp only
  rw [hwidth, tokens_owned, Loc.through_cons]

/-- A lexeme gives its token. -/
theorem tokens_of_lexeme (hgap : gap? c (cs ++ rest) = none) (h : lexeme c (cs ++ rest) = (kind, cs.length)) :
    tokens loc 0 (c :: (cs ++ rest)) = ⟨kind, loc⟩ :: tokens (loc.through (c :: cs)) 0 rest := by
  rw [tokens, hgap]
  simp only [h]
  rw [tokens_owned, Loc.through_cons]

theorem isBlank_of_mem (h : c ∈ [' ', '\t', '\r', '\n']) : isBlank c = true := by
  simp only [List.mem_cons, List.not_mem_nil, or_false] at h
  rcases h with rfl | rfl | rfl | rfl <;> rfl

/-- A block comment is as wide as its text. -/
theorem commentWidth_of_closes {depth : Nat} (h : Closes depth cs) : commentWidth depth (cs ++ rest) = cs.length := by
  induction h with
  | done => cases rest <;> rfl
  | @close depth cs _ ih =>
    show 2 + commentWidth depth (cs ++ rest) = cs.length + 2
    rw [ih, Nat.add_comm]
  | @nest depth cs _ ih =>
    show 2 + commentWidth (depth + 2) (cs ++ rest) = cs.length + 2
    rw [ih, Nat.add_comm]
  | @other depth c cs hclose hnest hcs ih =>
    -- The text goes on, since a comment is still open; so what follows the comment is not looked at.
    obtain ⟨d, cs, rfl⟩ : ∃ d cs', cs = d :: cs' := by
      cases cs with
      | nil => cases hcs
      | cons d cs => exact ⟨d, cs, rfl⟩
    simp only [List.head?_cons, Option.some.injEq] at hclose hnest
    rw [List.cons_append, commentWidth]
    · rw [ih]
      exact Nat.add_comm 1 _
    · rintro cs' rfl heq
      exact hclose ⟨rfl, (List.cons.inj heq).1⟩
    · rintro cs' rfl heq
      exact hnest ⟨rfl, (List.cons.inj heq).1⟩

/-- A block comment that is open at the end of the source ends there. -/
theorem commentWidth_of_open {depth : Nat} (h : ∀ start, start <+: cs → ¬Closes depth start) : commentWidth depth cs = cs.length := by
  fun_induction commentWidth depth cs with
  | case1 cs => exact absurd .done (h [] List.nil_prefix)
  | case2 => rfl
  | case3 depth cs ih =>
    rw [ih fun start hs hc => h ('*' :: '/' :: start) (by simpa using hs) (.close hc)]
    exact Nat.add_comm 2 _
  | case4 depth cs ih =>
    rw [ih fun start hs hc => h ('/' :: '*' :: start) (by simpa using hs) (.nest hc)]
    exact Nat.add_comm 2 _
  | case5 depth c cs hclose hnest ih =>
    rw [ih fun start hs hc => ?_]
    · exact Nat.add_comm 1 _
    -- what follows in the text is what follows in its start
    have hhead : ∀ d, start.head? = some d → ∃ more, cs = d :: more := by
      rintro d hd
      obtain ⟨more, rfl⟩ := hs
      obtain ⟨start, rfl⟩ := List.head?_eq_some_iff.mp hd
      exact ⟨start ++ more, rfl⟩
    refine h (c :: start) (by simpa using hs) (.other (fun hc => ?_) (fun hc => ?_) hc)
    · obtain ⟨more, rfl⟩ := hhead _ hc.2
      exact hclose more hc.1 rfl
    · obtain ⟨more, rfl⟩ := hhead _ hc.2
      exact hnest more hc.1 rfl

/-- Blanks and comments are passed over. -/
theorem tokens_gap (h : IsGap cs) : tokens loc 0 (cs ++ rest) = tokens (loc.through cs) 0 rest := by
  induction h generalizing loc with
  | nil => rfl
  | @blank c cs hc _ ih =>
    have hgap : gap? c ([] ++ (cs ++ rest)) = some 0 := by simp [gap?, isBlank_of_mem hc]
    exact (tokens_of_gap hgap rfl).trans ih
  | @line text cs htext _ ih =>
    have hwidth : ((('/' :: text) ++ ('\n' :: cs ++ rest)).takeWhile (· != '\n')) = '/' :: text := by
      rw [List.takeWhile_append_of_pos]
      · simp
      · intro d hd
        rcases List.mem_cons.mp hd with rfl | hd
        · rfl
        · exact bne_iff_ne.mpr fun he => htext (he ▸ hd)
    have hgap : gap? '/' (('/' :: text) ++ ('\n' :: cs ++ rest)) = some ('/' :: text).length := congrArg some (congrArg List.length hwidth)
    have hfeed : gap? '\n' ([] ++ (cs ++ rest)) = some 0 := rfl
    have hsplit : '/' :: '/' :: (text ++ '\n' :: cs) ++ rest = '/' :: (('/' :: text) ++ ('\n' :: cs ++ rest)) := by simp
    rw [hsplit, tokens_of_gap hgap rfl]
    refine (tokens_of_gap hfeed rfl).trans (ih.trans ?_)
    simp [Loc.through]
  | @block text cs htext _ ih =>
    have hgap : gap? '/' (('*' :: text) ++ (cs ++ rest)) = some (1 + commentWidth 1 (text ++ (cs ++ rest))) := rfl
    have hsplit : '/' :: '*' :: (text ++ cs) ++ rest = '/' :: (('*' :: text) ++ (cs ++ rest)) := by simp
    rw [hsplit, tokens_of_gap hgap (by rw [commentWidth_of_closes htext, List.length_cons, Nat.add_comm])]
    refine ih.trans ?_
    simp [Loc.through]

/-! ## Scanning words and marks -/

theorem apart_nil : Apart [] :=
  fun _ h => by cases h

/-- A row of characters of a kind ends where something else stands apart from it. -/
theorem takeWhile_apart (hcs : ∀ d ∈ cs, p d = true) (hp : ∀ d ∈ [' ', '\t', '\r', '\n'], p d = false) (hrest : Apart rest) :
    (cs ++ rest).takeWhile p = cs := by
  rw [List.takeWhile_append_of_pos hcs]
  cases rest with
  | nil => simp
  | cons d rest => rw [List.takeWhile_cons, hp d (hrest d rfl)]; simp

theorem forall_eq_false (h : cs.any p = false) : ∀ d ∈ cs, p d = false :=
  fun d hd => Bool.eq_false_iff.mpr (List.any_eq_false.mp h d hd)

/-- What follows a row of characters of a kind and stands apart from it does not start with a character that is neither of the kind
nor a blank. -/
theorem head?_ne_of_apart (hcs : ∀ d ∈ cs, p d = true) (hrest : Apart rest) {d : Char} (hd : p d = false)
    (hblank : d ∉ [' ', '\t', '\r', '\n']) : ∀ more, cs ++ rest ≠ d :: more := by
  intro more h
  cases cs with
  | nil => exact hblank (hrest d (by rw [show rest = d :: more from h]; rfl))
  | cons e cs =>
    have := hcs e List.mem_cons_self
    rw [(List.cons.inj h).1, hd] at this
    cases this

/-- A character of a kind to which no blank and no slash belongs starts no gap. -/
theorem gap?_eq_none (hc : p c = true) (hp : [' ', '\t', '\r', '\n', '/'].any p = false) : gap? c cs = none := by
  have hne : ∀ d ∈ [' ', '\t', '\r', '\n', '/'], c ≠ d := fun d hd => ne_of_apply_ne p (by simp [hc, forall_eq_false hp d hd])
  simp only [List.forall_mem_cons] at hne
  unfold gap?
  rw [if_neg (by simp [isBlank, hne])]
  split
  · exact absurd rfl hne.2.2.2.2.1
  · exact absurd rfl hne.2.2.2.2.1
  · rfl

theorem lexeme_word (hc : Text.startsWord c = true) (hcs : ∀ d ∈ cs, Text.continuesWord d = true) (hrest : Apart rest) :
    gap? c (cs ++ rest) = none ∧ lexeme c (cs ++ rest) = (word (String.ofList (c :: cs)), cs.length) := by
  refine ⟨gap?_eq_none hc (by decide), ?_⟩
  unfold lexeme
  split
  · rename_i more h
    exact absurd h (head?_ne_of_apart hcs hrest (by decide) (by decide) more)
  · rename_i more h
    exact absurd h (head?_ne_of_apart hcs hrest (by decide) (by decide) more)
  · rw [if_pos hc, takeWhile_apart hcs (forall_eq_false (by decide)) hrest]

theorem lexeme_mark (m : Mark) (hrest : Apart rest) :
    ∃ c cs, m.spelling = c :: cs ∧ gap? c (cs ++ rest) = none ∧ lexeme c (cs ++ rest) = (.mark m, cs.length) := by
  cases rest with
  | nil => cases m <;> exact ⟨_, _, rfl, rfl, rfl⟩
  | cons d rest =>
    have hd := hrest d rfl
    simp only [List.mem_cons, List.not_mem_nil, or_false] at hd
    rcases hd with rfl | rfl | rfl | rfl <;> cases m <;> exact ⟨_, _, rfl, rfl, rfl⟩

/-! ## Scanning literals -/

/-- An escaped character is the character itself, which then ends nothing, or a backslash with a character that stands for it. -/
theorem escaped_cases {quote : Char} (hquote : quote = '"' ∨ quote = '\'') (c : Char) :
    (escaped quote c = [c] ∧ c ≠ '\\' ∧ c ≠ quote ∧ c ≠ '\n') ∨ ∃ e, escaped quote c = ['\\', e] ∧ unescape e = c := by
  unfold escaped
  split
  · rename_i h
    refine .inr ⟨c, rfl, ?_⟩
    rcases h with rfl | rfl
    · rfl
    · rcases hquote with rfl | rfl <;> rfl
  · rename_i h
    obtain ⟨hslash, hq⟩ := not_or.mp h
    by_cases hn : c = '\n'
    · exact .inr ⟨'n', by rw [if_pos hn], hn.symm⟩
    by_cases ht : c = '\t'
    · exact .inr ⟨'t', by rw [if_neg hn, if_pos ht], ht.symm⟩
    by_cases hr : c = '\r'
    · exact .inr ⟨'r', by rw [if_neg hn, if_neg ht, if_pos hr], hr.symm⟩
    by_cases h0 : c = '\x00'
    · exact .inr ⟨'0', by rw [if_neg hn, if_neg ht, if_neg hr, if_pos h0], h0.symm⟩
    exact .inl ⟨by rw [if_neg hn, if_neg ht, if_neg hr, if_neg h0], hslash, hq, hn⟩

theorem stringBody_append (value : List Char) : stringBody (value.flatMap (escaped '"') ++ rest) =
    (value ++ (stringBody rest).1, (value.flatMap (escaped '"')).length + (stringBody rest).2) := by
  induction value with
  | nil => simp
  | cons c value ih =>
    rw [List.flatMap_cons, List.append_assoc]
    rcases escaped_cases (.inl rfl) c with ⟨h, hslash, hquote, hfeed⟩ | ⟨e, h, he⟩
    · rw [h, List.singleton_append, stringBody, ih]
      · simp [Nat.add_right_comm]
      · exact hquote
      · exact hfeed
      · exact fun h _ => hslash h
      · exact fun _ _ h _ => hslash h
    · rw [h, List.cons_append, List.singleton_append, stringBody, ih, he]
      simp [Nat.add_right_comm]

theorem stringBody_escaped (value : List Char) :
    stringBody (value.flatMap (escaped '"') ++ '"' :: rest) = (value, (value.flatMap (escaped '"')).length + 1) := by
  rw [stringBody_append]
  simp [stringBody]

/-- A text that is open at the end of its line ends there. -/
theorem stringBody_open (value : List Char) (hrest : ∀ c ∈ rest.head?, c = '\n') :
    stringBody (value.flatMap (escaped '"') ++ rest) = (value, (value.flatMap (escaped '"')).length) := by
  have hend : stringBody rest = ([], 0) := by
    cases rest with
    | nil => rfl
    | cons c rest =>
      obtain rfl := hrest c rfl
      rfl
  rw [stringBody_append, hend, List.append_nil, Nat.add_zero]

theorem charValue_escaped (c : Char) : charValue (escaped '\'' c ++ rest) = (c, (escaped '\'' c).length) := by
  rcases escaped_cases (.inr rfl) c with ⟨h, hslash, -⟩ | ⟨e, h, he⟩
  · rw [h, List.singleton_append, charValue]
    · rfl
    · exact fun h _ => hslash h
    · exact fun _ _ h _ => hslash h
  · rw [h, List.cons_append, List.singleton_append, charValue, he]
    rfl

theorem charBody_escaped (c : Char) : charBody (escaped '\'' c ++ '\'' :: rest) = (c, (escaped '\'' c).length + 1) := by
  simp [charBody, charValue_escaped]

/-- A character that no quote follows ends at once. -/
theorem charBody_open (c : Char) (hrest : rest.head? ≠ some '\'') : charBody (escaped '\'' c ++ rest) = (c, (escaped '\'' c).length) := by
  simp [charBody, charValue_escaped, hrest]

theorem ofDigits_toDigits (n : Nat) : Number.ofDigits 10 (Nat.toDigits 10 n) = n := by
  have hvalue : ∀ (l : List Char) (init : Nat), (∀ c ∈ l, c.isDigit = true) →
      l.foldl (fun n c => n * 10 + Number.digitValue c) init = Nat.ofDigitChars 10 l init := by
    intro l
    induction l with
    | nil => exact fun _ _ => rfl
    | cons c l ih =>
      intro init hl
      rw [List.foldl_cons, Nat.ofDigitChars_cons, ih _ fun d hd => hl d (List.mem_cons_of_mem _ hd), Number.digitValue,
        if_pos (hl c List.mem_cons_self), Nat.mul_comm]
  exact (hvalue _ 0 fun _ => Nat.isDigit_of_mem_toDigits (by decide) (by decide)).trans Nat.ofDigitChars_ten_toDigits

/-- No digit starts a word. -/
theorem startsWord_of_isDigit (h : c.isDigit = true) : Text.startsWord c = false := by
  have hrange : 48 ≤ c.toNat ∧ c.toNat ≤ 57 := Char.isDigit_iff_toNat.mp h
  have halpha : c.isAlpha = false := by
    show (decide (65 ≤ c.val ∧ c.val ≤ 90) || decide (97 ≤ c.val) && decide (c.val ≤ 122)) = false
    simp only [UInt32.le_iff_toNat_le, Bool.or_eq_false_iff, Bool.and_eq_false_iff, decide_eq_false_iff_not]
    change ¬(65 ≤ c.toNat ∧ c.toNat ≤ 90) ∧ (¬97 ≤ c.toNat ∨ ¬c.toNat ≤ 122)
    omega
  have hne : c ≠ '_' := by
    rintro rfl
    revert hrange
    decide
  simp [Text.startsWord, Text.isAlphabetic, halpha, hne, show c.toNat < 128 by omega]

/-- What starts with a digit is a number. -/
theorem lexeme_digit {width : Nat} (hc : c.isDigit = true) (h : number c cs = (kind, width + 1)) :
    gap? c cs = none ∧ lexeme c cs = (kind, width) := by
  refine ⟨gap?_eq_none hc (by decide), ?_⟩
  unfold lexeme
  split
  · cases hc
  · cases hc
  · rw [startsWord_of_isDigit hc, if_neg Bool.false_ne_true, if_pos hc, h]
    rfl

theorem lexeme_integer {n : Nat} (hn : n < UInt64.size) (hrest : Apart rest) :
    ∃ c cs, Nat.toDigits 10 n = c :: cs ∧ gap? c (cs ++ rest) = none ∧ lexeme c (cs ++ rest) = (.integer n, cs.length) := by
  obtain ⟨c, cs, hdigits⟩ := List.exists_cons_of_ne_nil (@Nat.toDigits_ne_nil n 10)
  have hall : ∀ d ∈ c :: cs, d.isDigit = true := fun d hd =>
    Nat.isDigit_of_mem_toDigits (by decide) (by decide) (hdigits ▸ hd)
  have hcs : ∀ d ∈ cs, d.isDigit = true := fun d hd => hall d (List.mem_cons_of_mem _ hd)
  have hc := hall c List.mem_cons_self
  have hrun : digitRun Char.isDigit (c :: cs ++ rest) = c :: cs := by
    unfold digitRun
    exact takeWhile_apart (fun d hd => by rw [hall d hd]; rfl) (forall_eq_false (by decide)) hrest
  have hdigitsOf : digitsOf Char.isDigit (c :: cs) = c :: cs := List.filter_eq_self.mpr hall
  have hwhole : fraction rest = none ∧ exponent rest = none := by
    cases rest with
    | nil => exact ⟨rfl, rfl⟩
    | cons d rest =>
      have hd := hrest d rfl
      simp only [List.mem_cons, List.not_mem_nil, or_false] at hd
      rcases hd with rfl | rfl | rfl | rfl <;> exact ⟨rfl, rfl⟩
  have hvalue : Number.ofDigits 10 (c :: cs) = n := hdigits ▸ ofDigits_toDigits n
  have hdecimal : decimalLiteral (c :: cs ++ rest) = (.integer n, (c :: cs).length) := by
    unfold decimalLiteral
    simp only [hrun, hdigitsOf, List.drop_left, hwhole, integerKind, hvalue, if_pos hn]
  have hnumber : number c (cs ++ rest) = (.integer n, (c :: cs).length) := by
    unfold number
    split
    · rename_i more h
      exact absurd h (head?_ne_of_apart hcs hrest (by decide) (by decide) more)
    · rename_i more h
      exact absurd h (head?_ne_of_apart hcs hrest (by decide) (by decide) more)
    · exact hdecimal
  exact ⟨c, cs, hdigits, lexeme_digit hc hnumber⟩

/-- The scan gives back a token that is spelled, whatever stands apart behind it. -/
theorem lexeme_spelling (h : kind.Spelled) (hrest : Apart rest) :
    ∃ c cs, kind.spelling = c :: cs ∧ gap? c (cs ++ rest) = none ∧ lexeme c (cs ++ rest) = (kind, cs.length) := by
  cases kind with
  | keyword k =>
    have hword : ∃ c cs, k.spelling.toList = c :: cs ∧ Text.startsWord c = true ∧ (∀ d ∈ cs, Text.continuesWord d = true) ∧
        word (String.ofList (c :: cs)) = .keyword k := by
      cases k <;> exact ⟨_, _, rfl, by decide, List.all_eq_true.mp (by decide), by decide +kernel⟩
    obtain ⟨c, cs, hspelling, hc, hcs, hkind⟩ := hword
    obtain ⟨hgap, hlexeme⟩ := lexeme_word hc hcs hrest
    exact ⟨c, cs, hspelling, hgap, hkind ▸ hlexeme⟩
  | mark m => exact lexeme_mark m hrest
  | ident name =>
    obtain ⟨⟨c, cs, hname, hc, hcs⟩, hkeyword⟩ := h
    obtain ⟨hgap, hlexeme⟩ := lexeme_word hc hcs hrest
    refine ⟨c, cs, hname, hgap, ?_⟩
    rw [hlexeme, ← hname, String.ofList_toList, word, hkeyword]
  | integer n => exact lexeme_integer h hrest
  | string s =>
    refine ⟨'"', _, rfl, rfl, ?_⟩
    show (Kind.string (String.ofList (stringBody _).1), (stringBody _).2) = _
    rw [List.append_assoc, List.singleton_append, stringBody_escaped, String.ofList_toList]
    simp
  | cstring s =>
    refine ⟨'c', _, rfl, rfl, ?_⟩
    show (Kind.cstring (String.ofList (stringBody (_ ++ _)).1), (stringBody (_ ++ _)).2 + 1) = _
    rw [List.append_assoc, List.singleton_append, stringBody_escaped, String.ofList_toList]
    simp
  | character c =>
    refine ⟨'\'', _, rfl, rfl, ?_⟩
    show (Kind.character (charBody _).1, (charBody _).2) = _
    rw [List.append_assoc, List.singleton_append, charBody_escaped]
    simp
  | byte b =>
    have hvalid : b.isValidChar := .inl (Nat.lt_trans h (by decide))
    have hcode : (Char.ofNat b).toNat = b := by
      rw [Char.ofNat, dif_pos hvalid]
      rfl
    refine ⟨'b', _, rfl, rfl, ?_⟩
    show (byteKind (charBody (_ ++ _)).1, (charBody (_ ++ _)).2 + 1) = _
    rw [List.append_assoc, List.singleton_append, charBody_escaped]
    simp [byteKind, hcode, show b < 256 from h]
  | oversized | floating | unknown | endOfFile => cases h

end Scan

/-! ## Rows of tokens -/

/-- A token with its separator is read before the rest. -/
theorem kinds_spelled (loc : Loc) (rest : List Char) {kind : Kind} {separator : List Char} (hkind : kind.Spelled)
    (hseparator : IsSeparator separator) :
    ∃ loc', (tokens loc 0 (kind.spelling ++ (separator ++ rest))).map (·.kind) = kind :: (tokens loc' 0 rest).map (·.kind) := by
  obtain ⟨hgap, b, hb, hhead⟩ := hseparator
  have hapart : Apart (separator ++ rest) := fun d hd => by
    rw [List.head?_append, hhead] at hd
    cases hd
    exact hb
  obtain ⟨c, cs, hspelling, hnogap, hlexeme⟩ := lexeme_spelling hkind hapart
  exact ⟨_, by rw [hspelling, List.cons_append, tokens_of_lexeme hnogap hlexeme, tokens_gap hgap, List.map_cons]⟩

theorem tokens_spread {loc : Loc} (row : List (Kind × List Char)) (h : ∀ t ∈ row, t.1.Spelled ∧ IsSeparator t.2) :
    (tokens loc 0 (spread row)).map (·.kind) = row.map (·.1) ++ [.endOfFile] := by
  induction row generalizing loc with
  | nil => rfl
  | cons t row ih =>
    obtain ⟨kind, separator⟩ := t
    obtain ⟨hkind, hseparator⟩ := h _ List.mem_cons_self
    cases row with
    | nil =>
      obtain ⟨c, cs, hspelling, hnogap, hlexeme⟩ := lexeme_spelling hkind apart_nil
      have hrow : spread [(kind, separator)] = c :: (cs ++ []) := by rw [List.append_nil]; exact hspelling
      rw [hrow, tokens_of_lexeme hnogap hlexeme]
      rfl
    | cons t row =>
      obtain ⟨loc', hkinds⟩ := kinds_spelled loc (spread (t :: row)) hkind hseparator
      exact hkinds.trans (congrArg _ (ih fun t ht => h t (List.mem_cons_of_mem _ ht)))

/-- Scanning gives back the tokens that were spelled, with the end of the file behind them, whatever separators stand between
them. -/
theorem Token.scan_spread (row : List (Kind × List Char)) (h : ∀ t ∈ row, t.1.Spelled ∧ IsSeparator t.2) :
    (Token.scan (String.ofList (spread row))).map (·.kind) = row.map (·.1) ++ [.endOfFile] := by
  rw [Token.scan, String.toList_ofList]
  exact tokens_spread row h

/-- A prefix that is a name of its own, a slash before a comment, comments in a comment, and literals full of escapes. -/
theorem Token.scan_spread_comments :
    let row : List (Kind × List Char) := [(.ident "c", [' ']), (.string "a\"\n", [' ', '/', '*', '/', '*', '*', '/', '*', '/']),
      (.mark .slash, ['\t', '/', '/', '"', '\n']), (.byte 10, ['\n'])]
    (∀ t ∈ row, t.1.Spelled ∧ IsSeparator t.2) ∧
      (Token.scan (String.ofList (spread row))).map (·.kind) =
        [.ident "c", .string "a\"\n", .mark .slash, .byte 10, .endOfFile] := by
  intro row
  have hrow : ∀ t ∈ row, t.1.Spelled ∧ IsSeparator t.2 := by
    have hblank : ∀ {c : Char} {cs : List Char}, c ∈ [' ', '\t', '\r', '\n'] → IsGap cs → IsSeparator (c :: cs) :=
      fun hc hcs => ⟨.blank hc hcs, _, hc, rfl⟩
    have hnested : Closes 1 ['/', '*', '*', '/', '*', '/'] := .nest (.close (.close .done))
    have hline : IsGap ('/' :: '/' :: (['"'] ++ '\n' :: [])) := .line (by decide) .nil
    have hbyte : (Kind.byte 10).Spelled := (by decide : 10 < 256)
    simp only [row, List.forall_mem_cons]
    exact ⟨⟨⟨⟨'c', [], rfl, by decide, List.all_eq_true.mp (by decide)⟩, by decide +kernel⟩, hblank (by decide) .nil⟩,
      ⟨trivial, hblank (by decide) (.block hnested .nil)⟩, ⟨trivial, hblank (by decide) hline⟩, ⟨hbyte, hblank (by decide) .nil⟩,
      fun _ h => absurd h List.not_mem_nil⟩
  exact ⟨hrow, Token.scan_spread row hrow⟩

/-! ## What stands open -/

/-- Tokens with a separator behind each. -/
def separated (row : List (Kind × List Char)) : List Char :=
  row.flatMap fun t => t.1.spelling ++ t.2

/-- Where a text starts does not change what stands in it. -/
theorem kinds_eq (loc loc' : Loc) (owned : Nat) (cs : List Char) :
    (tokens loc owned cs).map (·.kind) = (tokens loc' owned cs).map (·.kind) := by
  induction cs generalizing loc loc' owned with
  | nil => cases owned <;> rfl
  | cons c cs ih =>
    cases owned with
    | succ owned => exact ih _ _ _
    | zero =>
      rw [tokens, tokens]
      cases gap? c cs with
      | some width => exact ih _ _ _
      | none => exact congrArg (_ :: ·) (ih _ _ _)

/-- The kinds of the tokens in a text. -/
def kindsOf (cs : List Char) : List Kind :=
  (Token.scan (String.ofList cs)).map (·.kind)

theorem kinds_tokens (loc : Loc) (cs : List Char) : (tokens loc 0 cs).map (·.kind) = kindsOf cs := by
  rw [kindsOf, Token.scan, String.toList_ofList]
  exact kinds_eq _ _ _ _

theorem kindsOf_lexeme {c : Char} {cs rest : List Char} {kind : Kind} (hgap : gap? c (cs ++ rest) = none)
    (h : lexeme c (cs ++ rest) = (kind, cs.length)) : kindsOf (c :: (cs ++ rest)) = kind :: kindsOf rest := by
  rw [← kinds_tokens .start, tokens_of_lexeme hgap h, List.map_cons, kinds_tokens]

theorem kindsOf_separated {row : List (Kind × List Char)} (h : ∀ t ∈ row, t.1.Spelled ∧ IsSeparator t.2) (rest : List Char) :
    kindsOf (separated row ++ rest) = row.map (·.1) ++ kindsOf rest := by
  induction row with
  | nil => rfl
  | cons t row ih =>
    obtain ⟨⟨hkind, hseparator⟩, hrow⟩ := List.forall_mem_cons.mp h
    obtain ⟨loc, hfirst⟩ := kinds_spelled .start (separated row ++ rest) hkind hseparator
    rw [kinds_tokens, kinds_tokens, ih hrow] at hfirst
    rw [separated, List.flatMap_cons, List.append_assoc, List.append_assoc]
    exact hfirst

/-- What stands open is read as if it was closed: a text at the end of its line, a character that no quote follows, and a block
comment at the end of the source. -/
theorem Token.scan_open {row : List (Kind × List Char)} (h : ∀ t ∈ row, t.1.Spelled ∧ IsSeparator t.2) :
    (∀ value rest, (∀ c ∈ rest.head?, c = '\n') → kindsOf (separated row ++ '"' :: (value.flatMap (escaped '"') ++ rest)) =
      row.map (·.1) ++ .string (String.ofList value) :: kindsOf rest) ∧
    (∀ c rest, rest.head? ≠ some '\'' → kindsOf (separated row ++ '\'' :: (escaped '\'' c ++ rest)) =
      row.map (·.1) ++ .character c :: kindsOf rest) ∧ ∀ text, (∀ start, start <+: text → ¬Closes 1 start) →
      kindsOf (separated row ++ '/' :: '*' :: text) = row.map (·.1) ++ [.endOfFile] := by
  simp only [kindsOf_separated h, List.append_cancel_left_eq]
  refine ⟨fun value rest hrest => kindsOf_lexeme rfl ?_, fun c rest hrest => kindsOf_lexeme rfl ?_, fun text htext => ?_⟩
  · show (Kind.string (String.ofList (stringBody _).1), (stringBody _).2) = _
    rw [stringBody_open value hrest]
  · show (Kind.character (charBody _).1, (charBody _).2) = _
    rw [charBody_open c hrest]
  · have hgap : gap? '/' ('*' :: text ++ []) = some ('*' :: text).length := by
      show some (1 + commentWidth 1 (text ++ [])) = _
      rw [List.append_nil, commentWidth_of_open htext, List.length_cons, Nat.add_comm]
    rw [← List.append_nil ('*' :: text), ← kinds_tokens .start, tokens_of_gap hgap rfl]
    rfl

/-- The line ends inside the text, and a definition is read whole. -/
example : kindsOf "let s = \"abc\n;".toList =
    [.keyword .letKw, .ident "s", .mark .eq, .string "abc", .mark .semicolon, .endOfFile] := by
  decide +kernel

end Ember
