import Ember.C.Unit
import Ember.IR.Print
import Mathlib.Data.List.Infix

/-!
# Texts of the source in printed texts

A text between quotes is one string of C, whatever its characters (`afterLiteral_quoted`). The target of an import is printed as it is: its
comment ends where it should exactly if the target holds no end of a comment (`afterComment_import_iff`). The imports of a module show
in its text in their own lines only (`toC_imports`, `text_imports`).
-/

namespace Ember.C

/-- What stands behind a string of C whose opening quote was read. A string ends on its line. -/
def afterLiteral : List Char → Option (List Char)
  | [] => none
  | '"' :: rest => some rest
  | '\n' :: _ => none
  | '\\' :: _ :: rest => afterLiteral rest
  | _ :: rest => afterLiteral rest

/-- What stands behind a comment of C whose start was read. -/
def afterComment : List Char → Option (List Char)
  | [] => none
  | '*' :: '/' :: rest => some rest
  | _ :: rest => afterComment rest

/-- Whether the inside of a string goes on behind these characters. -/
def staysInside : List Char → Bool
  | [] => true
  | '\\' :: _ :: rest => staysInside rest
  | c :: rest => c ≠ '"' && c ≠ '\n' && c ≠ '\\' && staysInside rest

theorem afterLiteral_append {l : List Char} (h : staysInside l = true) (rest : List Char) :
    afterLiteral (l ++ rest) = afterLiteral rest := by
  induction l using staysInside.induct with
  | case1 => rfl
  | case2 c l ih =>
    rw [staysInside] at h
    exact ih h
  | case3 c l hescape ih =>
    rw [staysInside] at h
    · simp only [Bool.and_eq_true, decide_eq_true_eq] at h
      obtain ⟨⟨⟨hquote, hline⟩, hslash⟩, hl⟩ := h
      rw [List.cons_append, afterLiteral.eq_5 _ _ hquote hline (fun _ _ hc _ => hslash hc)]
      exact ih hl
    · exact hescape

/-- No byte ends the string that it is written in. -/
theorem staysInside_escapedByte (byte : UInt8) : staysInside (escapedByte byte) = true := by
  have hall : ∀ n : Fin 256, staysInside (escapedByte (UInt8.ofNat n)) = true := by decide +kernel
  simpa using hall ⟨byte.toNat, byte.toNat_lt⟩

/-- A text between quotes is one string. -/
theorem afterLiteral_quoted (s : String) (rest : List Char) :
    ∃ inside, (quoted s).toList = '"' :: inside ∧ afterLiteral (inside ++ rest) = some rest := by
  refine ⟨s.toUTF8.toList.flatMap escapedByte ++ ['"'], by simp [quoted], ?_⟩
  rw [List.append_assoc]
  induction s.toUTF8.toList with
  | nil => rfl
  | cons byte bytes ih => rw [List.flatMap_cons, List.append_assoc, afterLiteral_append (staysInside_escapedByte byte), ih]

theorem afterComment_cons {c : Char} {l : List Char} (h : c = '*' → l.head? ≠ some '/') : afterComment (c :: l) = afterComment l := by
  refine afterComment.eq_3 c l fun rest hc hl => ?_
  exact h hc (by rw [hl]; rfl)

/-- A comment ends in a text that holds an end of a comment. -/
theorem afterComment_of_terminator {text : List Char} (h : ['*', '/'] <:+: text) (more : List Char) :
    ∃ rest, afterComment (text ++ more) = some rest ∧ more.length ≤ rest.length := by
  induction text using afterComment.induct with
  | case1 => simp at h
  | case2 text => exact ⟨text ++ more, rfl, by simp⟩
  | case3 c text hstart ih =>
    rcases List.infix_cons_iff.mp h with hstarts | hlater
    · obtain ⟨after, hafter⟩ := hstarts
      cases hafter
      exact absurd rfl (hstart after rfl)
    · rw [List.cons_append, afterComment_cons fun hc hhead => ?_]
      · exact ih hlater
      · obtain ⟨d, text, rfl⟩ := List.exists_cons_of_ne_nil (List.ne_nil_of_mem (hlater.subset List.mem_cons_self))
        cases hhead
        exact hstart text hc rfl

/-- A comment around a text ends where it should exactly if the text holds no end of a comment. -/
theorem afterComment_append_iff (text rest : List Char) :
    afterComment (text ++ ' ' :: '*' :: '/' :: rest) = some rest ↔ ¬['*', '/'] <:+: text := by
  constructor
  · intro h hlater
    obtain ⟨rest', hrest', hlength⟩ := afterComment_of_terminator hlater (' ' :: '*' :: '/' :: rest)
    cases h.symm.trans hrest'
    simp only [List.length_cons] at hlength
    omega
  · intro h
    induction text with
    | nil => rfl
    | cons c text ih =>
      rw [List.infix_cons_iff, not_or] at h
      rw [List.cons_append, afterComment_cons fun hc hhead => ?_]
      · exact ih h.2
      · subst hc
        -- a blank stands between the text and the end of the comment
        cases text with
        | nil => cases hhead
        | cons d text =>
          cases hhead
          exact h.1 ⟨text, rfl⟩

/-- The comment of an import ends where it should exactly if its target holds no end of a comment. -/
theorem afterComment_import_iff (target : String) (rest : List Char) :
    ∃ inside, ("/* import " ++ target ++ " */").toList = '/' :: '*' :: inside ∧
      (afterComment (inside ++ rest) = some rest ↔ ¬['*', '/'] <:+: target.toList) := by
  refine ⟨" import ".toList ++ target.toList ++ " */".toList, by simp, ?_⟩
  rw [show " import ".toList ++ target.toList ++ " */".toList ++ rest =
    (" import ".toList ++ target.toList) ++ ' ' :: '*' :: '/' :: rest by simp, afterComment_append_iff]
  simp [List.infix_cons_iff]

/-- The comment of an import ends inside its target. -/
example : afterComment " import a*/b */".toList = some "b */".toList := by decide +kernel

end Ember.C

namespace Ember.IR.Module

/-- A row of lines as text. -/
def ofLines (l : List String) : String :=
  String.join (l.map (· ++ "\n"))

theorem ofLines_append (l l' : List String) : ofLines (l ++ l') = ofLines l ++ ofLines l' := by
  rw [ofLines, List.map_append, String.join_append]
  rfl

/-- The imports of a module show in its C text in their own lines only. -/
theorem toC_imports {m : Module} {debugInfo : Bool} {text : String} (h : m.toC debugInfo = .ok text) :
    ∃ before after, ∀ imports : List String, { m with imports }.toC debugInfo =
      .ok (before ++ ofLines (imports.map fun target => "/* import " ++ target ++ " */") ++ after) := by
  cases hf : (m.functions.filter fun f => !f.isDeclaration).mapM (C.function m debugInfo) with
  | error fault =>
    simp only [toC, hf, bind, Except.bind] at h
    cases h
  | ok functions =>
    refine ⟨ofLines (["/* " ++ m.name ++ " - generated by emberc */"] ++ C.headers.map fun h => "#include <" ++ h ++ ">"),
      ofLines ([""] ++ m.globals.map C.global ++ (if m.globals.isEmpty then [] else [""]) ++
        m.functions.map (fun f => C.prototype f false ++ ";") ++ [""] ++ functions.flatten), fun imports => ?_⟩
    -- what is printed of a function does not depend on the imports
    have hf' : (m.functions.filter fun f => !f.isDeclaration).mapM (C.function { m with imports } debugInfo) = .ok functions := hf
    simp only [toC, hf', bind, Except.bind, pure, Except.pure, ← ofLines_append, List.append_assoc]
    rfl

/-- The imports of a module show in its text in their own lines only. -/
theorem text_imports (m : Module) : ∃ before after, ∀ imports : List String,
    { m with imports }.text = before ++ ofLines (imports.map ("; import " ++ ·)) ++ after := by
  refine ⟨ofLines (["; ModuleID = '" ++ m.name ++ "'"] ++ if m.source.isEmpty then [] else ["source_filename = \"" ++ m.source ++ "\""]),
    ofLines ((if m.globals.isEmpty then [] else [""]) ++ m.globals.map (·.text) ++ m.functions.flatMap fun f => "" :: f.lines),
    fun imports => ?_⟩
  simp only [← ofLines_append, List.append_assoc, text, lines]
  rfl

end Ember.IR.Module
