import Ember.Proofs.Token.Spelling
import Mathlib.Data.Nat.Digits.Lemmas

/-!
# Numerals

A numeral is a row of digits with underscores among them, in base ten, or in base sixteen behind `0x`. The scan reads a numeral as one
token: the number that its digits stand for, if that is a word of 64 bits, and else a literal that is too large (`lexeme_numeral`).
-/

namespace Ember

open Scan

namespace Number

/-- The digits of base sixteen, each at its value. -/
def digits : List Char :=
  ['0', '1', '2', '3', '4', '5', '6', '7', '8', '9', 'a', 'b', 'c', 'd', 'e', 'f']

/-- The number of a row of digits, the last of which counts ones. -/
def denoted (base : Nat) (row : List Char) : Nat :=
  Nat.ofDigits base (row.reverse.map fun c => digits.idxOf c.toLower)

theorem mem_of_isHexDigit {c : Char} (h : isHexDigit c = true) : c ∈ digits ++ ['A', 'B', 'C', 'D', 'E', 'F'] := by
  have hrange : (48 ≤ c.toNat ∧ c.toNat ≤ 57) ∨ (97 ≤ c.toNat ∧ c.toNat ≤ 102) ∨ 65 ≤ c.toNat ∧ c.toNat ≤ 70 := by
    simp only [isHexDigit, Char.isDigit, Bool.or_eq_true, Bool.and_eq_true, decide_eq_true_eq, ge_iff_le, Char.le_def,
      UInt32.le_iff_toNat_le, or_assoc] at h
    exact h
  have hchar : c = Char.ofNat c.toNat := (Char.ofNat_toNat c).symm
  generalize c.toNat = n at hrange hchar
  subst hchar
  rcases hrange with ⟨hlow, hhigh⟩ | ⟨hlow, hhigh⟩ | ⟨hlow, hhigh⟩ <;> interval_cases n <;> decide

/-- A digit counts as much as its position says. -/
theorem digitValue_eq {c : Char} (h : isHexDigit c = true) : digitValue c = digits.idxOf c.toLower := by
  have hall : (digits ++ ['A', 'B', 'C', 'D', 'E', 'F']).all (fun d => digitValue d == digits.idxOf d.toLower) = true := by decide
  simpa using List.all_eq_true.mp hall c (mem_of_isHexDigit h)

theorem ofDigits_eq (base : Nat) {row : List Char} (h : ∀ c ∈ row, isHexDigit c = true) : ofDigits base row = denoted base row := by
  induction row using List.reverseRecOn with
  | nil => rfl
  | append_singleton row c ih =>
    have hrow : ofDigits base row = denoted base row := ih fun d hd => h d (List.mem_append_left _ hd)
    have hc : digitValue c = digits.idxOf c.toLower := digitValue_eq (h c (List.mem_append_right _ List.mem_cons_self))
    unfold ofDigits denoted at *
    rw [List.foldl_concat, hrow, hc, List.reverse_concat, List.map_cons, Nat.ofDigits_cons]
    ring

end Number

/-- The text stands for the number. -/
inductive Numeral : List Char → Nat → Prop where
  | decimal {c : Char} {cs : List Char} : c.isDigit = true → (∀ d ∈ cs, d.isDigit = true ∨ d = '_') →
      Numeral (c :: cs) (Number.denoted 10 ((c :: cs).filter (· ≠ '_')))
  | hexadecimal {mark : Char} {cs : List Char} : mark = 'x' ∨ mark = 'X' → (∀ d ∈ cs, isHexDigit d = true ∨ d = '_') →
      (∃ d ∈ cs, d ≠ '_') → Numeral ('0' :: mark :: cs) (Number.denoted 16 (cs.filter (· ≠ '_')))

namespace Scan

/-- The token holds a number, if that is a word of 64 bits, and else says that it is too large. -/
inductive Holds (n : Nat) : Kind → Prop where
  | word : n < UInt64.size → Holds n (.integer n)
  | oversized (text : String) : UInt64.size ≤ n → Holds n (.oversized text)

theorem holds_integerKind (base : Nat) (digits : List Char) (text : String) :
    Holds (Number.ofDigits base digits) (integerKind base digits text) := by
  unfold integerKind
  dsimp only
  split
  · exact .word ‹_›
  · exact .oversized text (Nat.le_of_not_lt ‹_›)

variable {isDigit : Char → Bool} {cs : List Char}

section

variable (hcs : ∀ d ∈ cs, isDigit d = true ∨ d = '_')
include hcs

/-- A row of digits and underscores ends before a semicolon. -/
theorem digitRun_semicolon (more : List Char) (hsemicolon : isDigit ';' = false) : digitRun isDigit (cs ++ ';' :: more) = cs := by
  rw [digitRun, List.takeWhile_append_of_pos (by simpa using hcs), List.takeWhile_cons]
  simp [hsemicolon]

theorem digitsOf_row (hunderscore : isDigit '_' = false) : digitsOf isDigit cs = cs.filter (· ≠ '_') := by
  refine List.filter_congr fun d hd => ?_
  rcases hcs d hd with h | rfl
  · have hne : d ≠ '_' := by
      rintro rfl
      rw [hunderscore] at h
      cases h
    simp [h, hne]
  · simp [hunderscore]

omit hcs in
theorem isHexDigit_of_isDigit {c : Char} (h : c.isDigit = true) : isHexDigit c = true := by
  simp [isHexDigit, h]

/-- The digits of a row stand for the number that they denote. -/
theorem ofDigits_row (base : Nat) (hdigit : ∀ d, isDigit d = true → isHexDigit d = true) :
    Number.ofDigits base (cs.filter (· ≠ '_')) = Number.denoted base (cs.filter (· ≠ '_')) := by
  refine Number.ofDigits_eq base fun d hd => ?_
  obtain ⟨hmem, hne⟩ := List.mem_filter.mp hd
  exact hdigit d ((hcs d hmem).resolve_right (by simpa using hne))

end

theorem number_decimal (more : List Char) {c : Char} (hcs : ∀ d ∈ c :: cs, d.isDigit = true ∨ d = '_') :
    ∃ kind, Holds (Number.denoted 10 ((c :: cs).filter (· ≠ '_'))) kind ∧ number c (cs ++ ';' :: more) = (kind, cs.length + 1) := by
  have hrun : digitRun Char.isDigit (c :: cs ++ ';' :: more) = c :: cs := digitRun_semicolon hcs more (by decide)
  have hdigits : digitsOf Char.isDigit (c :: cs) = (c :: cs).filter (· ≠ '_') := digitsOf_row hcs (by decide)
  have hmark : ∀ mark, mark.isDigit = false → mark ≠ '_' → mark ≠ ';' → ∀ rest, cs ++ ';' :: more ≠ mark :: rest := by
    intro mark hdigit hne hsemicolon rest heq
    cases cs with
    | nil => exact hsemicolon (List.cons.inj heq).1.symm
    | cons d cs =>
      obtain ⟨rfl, -⟩ := List.cons.inj heq
      rcases hcs d (by simp) with h | h
      · rw [hdigit] at h
        cases h
      · exact hne h
  have hdecimal : decimalLiteral (c :: cs ++ ';' :: more) =
      (integerKind 10 ((c :: cs).filter (· ≠ '_')) (String.ofList ((c :: cs).filter (· ≠ '_'))), cs.length + 1) := by
    unfold decimalLiteral
    simp only [hrun, hdigits, List.drop_left]
    rfl
  have hholds := holds_integerKind 10 ((c :: cs).filter (· ≠ '_')) (String.ofList ((c :: cs).filter (· ≠ '_')))
  rw [ofDigits_row hcs 10 fun _ => isHexDigit_of_isDigit] at hholds
  refine ⟨_, hholds, ?_⟩
  unfold number
  split
  · exact absurd ‹_› (hmark 'x' (by decide) (by decide) (by decide) _)
  · exact absurd ‹_› (hmark 'X' (by decide) (by decide) (by decide) _)
  · exact hdecimal

theorem hexLiteral_row (more : List Char) (hcs : ∀ d ∈ cs, isHexDigit d = true ∨ d = '_') (hsome : ∃ d ∈ cs, d ≠ '_') :
    ∃ kind, Holds (Number.denoted 16 (cs.filter (· ≠ '_'))) kind ∧ hexLiteral (cs ++ ';' :: more) = (kind, cs.length) := by
  obtain ⟨d, hd, hne⟩ := hsome
  have hnonempty : (cs.filter (· ≠ '_')).isEmpty = false := by
    rw [List.isEmpty_eq_false_iff_exists_mem]
    exact ⟨d, List.mem_filter.mpr ⟨hd, by simpa using hne⟩⟩
  have hholds := holds_integerKind 16 (cs.filter (· ≠ '_')) ("0x" ++ String.ofList (cs.filter (· ≠ '_')))
  rw [ofDigits_row hcs 16 fun _ h => h] at hholds
  refine ⟨_, hholds, ?_⟩
  unfold hexLiteral
  simp only [digitRun_semicolon hcs more (show isHexDigit ';' = false by decide), digitsOf_row hcs (show isHexDigit '_' = false by decide),
    hnonempty, Bool.false_eq_true, ↓reduceIte]

/-- Before a semicolon, a numeral is one lexeme, with the number that it stands for. -/
theorem lexeme_numeral {text : List Char} {n : Nat} (h : Numeral text n) (more : List Char) :
    ∃ c cs kind, text = c :: cs ∧ c.isDigit = true ∧ Holds n kind ∧ gap? c (cs ++ ';' :: more) = none ∧
      lexeme c (cs ++ ';' :: more) = (kind, cs.length) := by
  cases h with
  | @decimal c cs hc hcs =>
    obtain ⟨kind, hkind, hnumber⟩ := number_decimal more (List.forall_mem_cons.mpr ⟨.inl hc, hcs⟩)
    exact ⟨c, cs, kind, rfl, hc, hkind, lexeme_digit hc hnumber⟩
  | @hexadecimal mark cs hmark hcs hsome =>
    obtain ⟨kind, hkind, hliteral⟩ := hexLiteral_row more hcs hsome
    refine ⟨'0', mark :: cs, kind, rfl, by decide, hkind, lexeme_digit (by decide) ?_⟩
    rcases hmark with rfl | rfl <;> simp [number, hliteral]

end Scan

end Ember
