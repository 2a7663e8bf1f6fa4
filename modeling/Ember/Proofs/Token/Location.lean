import Ember.Source.File
import Ember.Token.Scan

/-!
# Locations of tokens

The scan counts lines and columns character by character; diagnostics cut the source into lines. The two agree at the first
character of every token (`scan_locations`): the line that the location names has that character at the column that the location
names. A line shown to the user lacks its line end only, and a token never starts with a character of a line end.
-/

namespace Ember

namespace Loc

/-- The order in which a source is read: line by line, and in a line from left to right. -/
def Before (a b : Loc) : Prop :=
  a.line < b.line ∨ a.line = b.line ∧ a.column < b.column

/-- The place after a row of characters. -/
def through (loc : Loc) (cs : List Char) : Loc :=
  cs.foldl after loc

@[simp] theorem through_nil (loc : Loc) : loc.through [] = loc :=
  rfl

@[simp] theorem through_cons (loc : Loc) (c : Char) (cs : List Char) : loc.through (c :: cs) = (loc.after c).through cs :=
  rfl

theorem Before.trans {a b c : Loc} (h : a.Before b) (h' : b.Before c) : a.Before c := by
  unfold Before at *
  omega

theorem before_after (loc : Loc) (c : Char) : loc.Before (loc.after c) := by
  unfold Before after
  split
  · exact .inl (Nat.lt_succ_self _)
  · exact .inr ⟨rfl, Nat.lt_succ_self _⟩

end Loc

/-! ## Lines -/

namespace SourceFile

variable {line before rest : List Char} {c : Char}

/-- The line that has been begun is part of the first line. -/
theorem head?_splitLines (hline : line ≠ []) (cs : List Char) : ∃ more, (splitLines line cs)[0]? = some (line.reverse ++ more) := by
  induction cs generalizing line with
  | nil =>
    cases line with
    | nil => exact absurd rfl hline
    | cons d line => exact ⟨[], by simp [splitLines]⟩
  | cons d cs ih =>
    by_cases hd : d = '\n'
    · exact ⟨['\n'], by simp [splitLines, hd]⟩
    · obtain ⟨more, hmore⟩ := ih (List.cons_ne_nil d line)
      exact ⟨d :: more, by simpa [splitLines, hd] using hmore⟩

/-- A character that ends no line is found in its line, at its column. The line has been begun with `line`. -/
theorem getElem?_splitLines (hc : c ≠ '\n') (number : Nat) :
    let loc := (⟨number, line.length + 1⟩ : Loc).through before
    number ≤ loc.line ∧ 1 ≤ loc.column ∧
      ∃ text, (splitLines line (before ++ c :: rest))[loc.line - number]? = some text ∧ text[loc.column - 1]? = some c := by
  induction before generalizing line number with
  | nil =>
    obtain ⟨more, hmore⟩ := head?_splitLines (List.cons_ne_nil c line) rest
    refine ⟨Nat.le_refl _, Nat.le_add_left 1 _, (c :: line).reverse ++ more, ?_, ?_⟩
    · rw [Loc.through_nil, Nat.sub_self, List.nil_append, splitLines, if_neg hc]
      exact hmore
    · simp
  | cons d before ih =>
    by_cases hd : d = '\n'
    · have hafter : (⟨number, line.length + 1⟩ : Loc).after d = ⟨number + 1, ([] : List Char).length + 1⟩ := by
        simp [Loc.after, hd]
      rw [Loc.through_cons, hafter, List.cons_append, splitLines, if_pos hd]
      obtain ⟨hle, hcolumn, text, htext, hchar⟩ := @ih [] (number + 1)
      refine ⟨Nat.le_of_succ_le hle, hcolumn, text, ?_, hchar⟩
      rw [List.getElem?_cons, if_neg (by omega), Nat.sub_sub]
      exact htext
    · have hafter : (⟨number, line.length + 1⟩ : Loc).after d = ⟨number, (d :: line).length + 1⟩ := by simp [Loc.after, hd]
      rw [Loc.through_cons, hafter, List.cons_append, splitLines, if_neg hd]
      exact @ih (d :: line) number

/-- What is cut off a line is part of its line end. -/
theorem exists_chomp (line : List Char) : ∃ lineEnd, line = chomp line ++ lineEnd ∧ ∀ c ∈ lineEnd, c = '\n' ∨ c = '\r' := by
  unfold chomp
  split
  · rename_i rest h
    exact ⟨['\r', '\n'], by rw [← List.reverse_reverse line, h]; simp, by simp⟩
  · rename_i rest _ h
    exact ⟨['\n'], by rw [← List.reverse_reverse line, h]; simp, by simp⟩
  · exact ⟨[], by simp, by simp⟩

/-- Cutting off the line end leaves all other characters where they are. -/
theorem getElem?_chomp {n : Nat} (h : (line)[n]? = some c) (hfeed : c ≠ '\n') (hreturn : c ≠ '\r') : (chomp line)[n]? = some c := by
  obtain ⟨lineEnd, hline, hend⟩ := exists_chomp line
  rw [hline, List.getElem?_append] at h
  split at h
  · exact h
  · rcases hend c (List.mem_of_getElem? h) with rfl | rfl
    · exact absurd rfl hfeed
    · exact absurd rfl hreturn

/-- A character of a source that is no part of a line end stands in the line that its location names, at the column that its
location names. -/
theorem lineText?_through {file : SourceFile} (h : file.contents.toList = before ++ c :: rest) (hfeed : c ≠ '\n') (hreturn : c ≠ '\r') :
    let loc := Loc.start.through before
    1 ≤ loc.column ∧ ∃ text, file.lineText? loc.line = some text ∧ text.toList[loc.column - 1]? = some c := by
  obtain ⟨hline, hcolumn, text, htext, hchar⟩ := @getElem?_splitLines [] before rest c hfeed 1
  rw [← h] at htext
  change 1 ≤ (Loc.start.through before).line at hline
  change (splitLines [] file.contents.toList)[(Loc.start.through before).line - 1]? = some text at htext
  refine ⟨hcolumn, String.ofList (chomp text), ?_, ?_⟩
  · generalize (Loc.start.through before).line = number at hline htext
    obtain ⟨number, rfl⟩ := Nat.exists_eq_add_of_le' hline
    rw [Nat.add_sub_cancel] at htext
    simp [lineText?, lines, htext]
  · rw [String.toList_ofList]
    exact getElem?_chomp hchar hfeed hreturn

end SourceFile

/-! ## Tokens -/

namespace Scan

variable {cs : List Char}

/-- No lexeme starts with a character of a line end. -/
theorem not_lineEnd_of_gap? {c : Char} (h : gap? c cs = none) : c ≠ '\n' ∧ c ≠ '\r' := by
  refine ⟨?_, ?_⟩ <;>
  · rintro rfl
    simp [gap?, isBlank] at h

/-- Every token but the last starts at a character, and is what the lexeme that starts there is; the tokens behind it are those of
the rest. -/
theorem tokens_split {loc : Loc} {owned : Nat} {earlier later : List Token} {token : Token}
    (h : tokens loc owned cs = earlier ++ token :: later) (hkind : token.kind ≠ .endOfFile) :
    ∃ before c rest, cs = before ++ c :: rest ∧ token.loc = loc.through before ∧ gap? c rest = none ∧
      token.kind = (lexeme c rest).1 ∧ tokens token.loc 0 (c :: rest) = token :: later := by
  fun_induction tokens loc owned cs generalizing earlier with
  | case1 loc owned =>
    cases earlier with
    | nil =>
      obtain ⟨rfl, rfl⟩ := List.cons.inj h
      exact absurd rfl hkind
    | cons t earlier => simp at h
  | case2 loc owned c cs ih | case3 loc c cs width hgap ih =>
    obtain ⟨before, d, rest, rfl, hloc, hd⟩ := ih h
    exact ⟨c :: before, d, rest, rfl, hloc, hd⟩
  | case4 loc c cs hgap kind width hlexeme ih =>
    cases earlier with
    | nil =>
      obtain ⟨rfl, rfl⟩ := List.cons.inj h
      refine ⟨[], c, cs, rfl, rfl, hgap, by rw [hlexeme], ?_⟩
      rw [tokens, hgap]
      simp only [hlexeme]
    | cons t earlier =>
      obtain ⟨before, d, rest, rfl, hloc, hd⟩ := ih (List.cons.inj h).2
      exact ⟨c :: before, d, rest, rfl, hloc, hd⟩

/-- No token stands before the place at which the scan starts. -/
theorem loc_of_mem_tokens {loc : Loc} {owned : Nat} {token : Token} (h : token ∈ tokens loc owned cs) :
    token.loc = loc ∨ loc.Before token.loc := by
  fun_induction tokens loc owned cs with
  | case1 loc owned => exact .inl (by rw [List.mem_singleton.mp h])
  | case2 loc owned c cs ih | case3 loc c cs width hgap ih =>
    rcases ih h with heq | hlt
    · exact .inr (heq ▸ Loc.before_after loc c)
    · exact .inr ((Loc.before_after loc c).trans hlt)
  | case4 loc c cs hgap kind width hlexeme ih =>
    rcases List.mem_cons.mp h with rfl | h
    · exact .inl rfl
    · rcases ih h with heq | hlt
      · exact .inr (heq ▸ Loc.before_after loc c)
      · exact .inr ((Loc.before_after loc c).trans hlt)

/-- Each token stands before all that follow it. -/
theorem pairwise_tokens (loc : Loc) (owned : Nat) (cs : List Char) : (tokens loc owned cs).Pairwise fun a b => a.loc.Before b.loc := by
  fun_induction tokens loc owned cs with
  | case1 loc owned => exact List.pairwise_singleton _ _
  | case2 loc owned c cs ih | case3 loc c cs width hgap ih => exact ih
  | case4 loc c cs hgap kind width hlexeme ih =>
    refine List.pairwise_cons.mpr ⟨fun token htoken => ?_, ih⟩
    rcases loc_of_mem_tokens htoken with heq | hlt
    · exact heq ▸ Loc.before_after loc c
    · exact (Loc.before_after loc c).trans hlt

end Scan

/-- A token stands where its location says: the source has a character at which the scan finds the token and from which on it finds
the rest, and the line of the location shows that character in the column of the location. Locations grow from token to token. -/
theorem SourceFile.scan_locations (file : SourceFile) :
    (Token.scan file.contents).Pairwise (fun a b => a.loc.Before b.loc) ∧
    ∀ earlier token later, Token.scan file.contents = earlier ++ token :: later → token.kind ≠ .endOfFile →
      ∃ before c rest text, file.contents.toList = before ++ c :: rest ∧ Scan.gap? c rest = none ∧
        token.kind = (Scan.lexeme c rest).1 ∧ Scan.tokens token.loc 0 (c :: rest) = token :: later ∧
        file.lineText? token.loc.line = some text ∧ 1 ≤ token.loc.column ∧ text.toList[token.loc.column - 1]? = some c := by
  refine ⟨Scan.pairwise_tokens _ _ _, fun earlier token later h hkind => ?_⟩
  obtain ⟨before, c, rest, hsplit, hloc, hgap, hlexeme, htokens⟩ := Scan.tokens_split h hkind
  obtain ⟨hfeed, hreturn⟩ := Scan.not_lineEnd_of_gap? hgap
  obtain ⟨hcolumn, text, htext, hchar⟩ := lineText?_through hsplit hfeed hreturn
  rw [← hloc] at hcolumn htext hchar
  exact ⟨before, c, rest, text, hsplit, hgap, hlexeme, htokens, htext, hcolumn, hchar⟩

/-- The name behind a tab, a string that goes on in the next line, a carriage return and a comment of two lines is where its location
says. -/
theorem SourceFile.scan_locations_mixed :
    let file : SourceFile := ⟨"a.em", "\te = \"ü\\\nb\";\r\n/* x\r\n */ y"⟩
    let earlier : List Token :=
      [⟨.ident "e", ⟨1, 2⟩⟩, ⟨.mark .eq, ⟨1, 4⟩⟩, ⟨.string "ü\nb", ⟨1, 6⟩⟩, ⟨.mark .semicolon, ⟨2, 3⟩⟩]
    Token.scan file.contents = earlier ++ ⟨.ident "y", ⟨4, 5⟩⟩ :: [⟨.endOfFile, ⟨4, 6⟩⟩] ∧
      ∃ c rest text, .ident "y" = (Scan.lexeme c rest).1 ∧ file.lineText? 4 = some text ∧ text.toList[4]? = some c := by
  intro file earlier
  have hscan : Token.scan file.contents = earlier ++ ⟨.ident "y", ⟨4, 5⟩⟩ :: [⟨.endOfFile, ⟨4, 6⟩⟩] := by decide +kernel
  obtain ⟨before, c, rest, text, -, -, hkind, -, htext, -, hchar⟩ := file.scan_locations.2 _ _ _ hscan Kind.noConfusion
  exact ⟨hscan, c, rest, text, hkind, htext, hchar⟩

end Ember
