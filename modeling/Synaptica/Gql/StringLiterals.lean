import Synaptica.Gql.Lexer

/-!
# String literals

A string is written between quotes, with each quote in it doubled. The lexer tells a quote of the
string from the one that closes it by the character behind it, so what follows a literal must not be
a quote itself.
-/

namespace Synaptica.Gql

/-- The string with its quotes doubled. -/
def doubleQuotes (s : List Char) : List Char :=
  s.flatMap fun c => if c = '\'' then ['\'', '\''] else [c]

/-- The literal that stands for the string. -/
def stringLiteral (s : String) : String :=
  "'" ++ String.ofList (doubleQuotes s.toList) ++ "'"

theorem doubleQuotes_quote (s : List Char) :
    doubleQuotes ('\'' :: s) = '\'' :: '\'' :: doubleQuotes s := rfl

theorem doubleQuotes_other {c : Char} (hc : c ≠ '\'') (s : List Char) :
    doubleQuotes (c :: s) = c :: doubleQuotes s := by
  simp [doubleQuotes, hc]

namespace Lexer

/-! ## The next character -/

section

variable {l : Lexer} {c : Char} {rest : List Char} (h : l.rest = c :: rest)

include h

theorem isEof_of_rest : l.isEof = false := by rw [isEof, h]; rfl

theorem peek_of_rest : l.peek = c := by rw [peek, h]; rfl

theorem rest_advance : l.advance.2.rest = rest := by
  have hrest := (advances_advance (isEof_of_rest h)).rest
  rw [h, peek_of_rest h] at hrest
  exact (List.cons.inj hrest).2.symm

end

theorem skipWhitespace_of_peek {l : Lexer} (h : isAsciiWhitespace l.peek = false) :
    l.skipWhitespace = l := by
  rw [skipWhitespace, advanceWhile, dif_neg]
  simp [h]

/-! ## Reading a literal -/

/-- The loop reads a string back from behind its opening quote. The induction is on the string: a
quote in it takes two characters, any other character one. -/
theorem stringLoop_doubleQuotes (s rest : List Char) (hrest : rest.head? ≠ some '\'') :
    ∀ l : Lexer, l.rest = doubleQuotes s ++ '\'' :: rest →
      ∃ l', stringLoop l = some (s, l') ∧ l'.rest = rest := by
  induction s with
  | nil =>
    intro l hl
    have hnext := rest_advance (c := '\'') hl
    have hclosed : ¬ (l.advance.2.isEof = false ∧ l.advance.2.peek = '\'') := by
      rintro ⟨hsome, hpeek⟩
      apply hrest
      cases rest with
      | nil => rw [isEof, hnext] at hsome; cases hsome
      | cons c rest => rw [← hpeek, peek_of_rest hnext]; rfl
    refine ⟨l.advance.2, ?_, hnext⟩
    rw [stringLoop, dif_pos (isEof_of_rest hl), if_pos (peek_of_rest hl), dif_neg hclosed]
  | cons c s ih =>
    intro l hl
    by_cases hc : c = '\''
    · subst hc
      rw [doubleQuotes_quote] at hl
      have hnext := rest_advance (c := '\'') hl
      obtain ⟨l', hloop, hl'⟩ := ih l.advance.2.advance.2 (rest_advance hnext)
      refine ⟨l', ?_, hl'⟩
      rw [stringLoop, dif_pos (isEof_of_rest hl), if_pos (peek_of_rest hl),
        dif_pos ⟨isEof_of_rest hnext, peek_of_rest hnext⟩, hloop]
      rfl
    · rw [doubleQuotes_other hc] at hl
      have hpeek : l.peek = c := peek_of_rest hl
      obtain ⟨l', hloop, hl'⟩ := ih l.advance.2 (rest_advance hl)
      refine ⟨l', ?_, hl'⟩
      rw [stringLoop, dif_pos (isEof_of_rest hl), if_neg (by rw [hpeek]; exact hc), hloop, hpeek]
      rfl

/-- The next token of a lexer in front of a literal is the string. -/
theorem nextToken_stringLiteral (s : String) {l : Lexer} {rest : List Char}
    (hrest : rest.head? ≠ some '\'') (hl : l.rest = (stringLiteral s).toList ++ rest) :
    ∃ l', nextToken l = .ok (⟨.stringLit s, l.currentSpan⟩, l') ∧ l'.rest = rest := by
  have hquote : l.rest = '\'' :: (doubleQuotes s.toList ++ '\'' :: rest) := by
    simpa [stringLiteral] using hl
  have hpeek : l.peek = '\'' := peek_of_rest hquote
  obtain ⟨l', hloop, hl'⟩ := stringLoop_doubleQuotes s.toList rest hrest _ (rest_advance hquote)
  refine ⟨l', ?_, hl'⟩
  have hskip : l.skipWhitespace = l := skipWhitespace_of_peek (by rw [hpeek]; decide)
  have hstring : nextToken l = lexString l.currentSpan l := by
    simp [nextToken, hskip, isEof_of_rest hquote, hpeek]
  rw [hstring]
  simp only [lexString, hloop, String.ofList_toList]

theorem nextToken_of_rest_nil {l : Lexer} (h : l.rest = []) :
    nextToken l = .ok (⟨.eof, l.currentSpan⟩, l) := by
  have hend : l.isEof = true := by rw [isEof, h]; rfl
  have hskip : l.skipWhitespace = l := by
    rw [skipWhitespace, advanceWhile, dif_neg]
    simp [hend]
  simp [nextToken, hskip, hend]

/-- The steps over a literal alone: its string, and the end of the input. -/
theorem tokenSteps_stringLiteral (s : String) :
    ∃ l, tokenSteps (new (stringLiteral s)) =
      .ok [(⟨.stringLit s, ⟨1, 1, 0⟩⟩, l), (⟨.eof, l.currentSpan⟩, l)] := by
  have hnew : (new (stringLiteral s)).rest = (stringLiteral s).toList ++ [] := by simp [new]
  obtain ⟨l, hnext, hl⟩ := nextToken_stringLiteral s (by simp) hnew
  refine ⟨l, ?_⟩
  rw [tokenSteps_cons hnext (by simp), tokenSteps_eof (nextToken_of_rest_nil hl) rfl]
  rfl

/-- The tokens of a literal are its string and the end of the input. -/
theorem tokenize_stringLiteral (s : String) :
    ∃ tokens, tokenize (new (stringLiteral s)) = .ok tokens ∧
      tokens.map SpannedToken.token = [.stringLit s, .eof] := by
  obtain ⟨l, hsteps⟩ := tokenSteps_stringLiteral s
  exact ⟨_, by rw [tokenize, hsteps]; rfl, rfl⟩

end Lexer

end Synaptica.Gql
