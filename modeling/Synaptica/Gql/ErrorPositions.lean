import Synaptica.Gql.Spans
import Synaptica.Gql.StatementEnds

/-!
# Parsing a text

`parse` ends on every text, with a program or with an error, and the line and the column of the error
are those of a place in the text. A lexer error stands where the lexer has come to; a parser error stands
at a token, whose span is where the token begins.
-/

namespace Synaptica.Gql

open TextPosition

/-- A place in the text has this line and this column. -/
def InText (input : List Char) (line column : Nat) : Prop :=
  ∃ before, before <+: input ∧ line = TextPosition.line before ∧ column = TextPosition.column before

namespace Lexer

/-! ## Errors of the lexer -/

/-- An error of a routine that began at `l` stands behind some text it has read. -/
def FailsBehind (l : Lexer) (r : Lexed) : Prop :=
  ∀ e, r = .error e → ∃ text l', Advances l text l' ∧ e.line = l'.line ∧ e.column = l'.column

theorem failsBehind_ok {l : Lexer} {after : SpannedToken × Lexer} : FailsBehind l (.ok after) := by
  intro e h
  cases h

theorem failsBehind_error {l l' : Lexer} {text : List Char} {e : LexerError}
    (h : Advances l text l') (hline : e.line = l'.line) (hcolumn : e.column = l'.column) :
    FailsBehind l (.error e) := by
  intro e' he
  cases he
  exact ⟨text, l', h, hline, hcolumn⟩

/-- The error of a routine that reports the place where its token begins. -/
theorem failsBehind_span (l : Lexer) (message : String) :
    FailsBehind l (.error ⟨message, l.currentSpan.line, l.currentSpan.column⟩) :=
  failsBehind_error (.refl l) rfl rfl

theorem failsBehind_lexMultiLineComment (l : Lexer) :
    FailsBehind l (lexMultiLineComment l.currentSpan l) := by
  unfold lexMultiLineComment
  cases commentLoop l.advance.2.advance.2 with
  | none => exact failsBehind_span l _
  | some after => exact failsBehind_ok

theorem failsBehind_lexString (l : Lexer) : FailsBehind l (lexString l.currentSpan l) := by
  unfold lexString
  cases stringLoop l.advance.2 with
  | none => exact failsBehind_span l _
  | some after => exact failsBehind_ok

theorem lexExponent_error {l : Lexer} {e : LexerError} (h : lexExponent l = .error e) :
    ∃ text l', Advances l text l' ∧ e.line = l'.line ∧ e.column = l'.column := by
  unfold lexExponent at h
  split at h
  next he =>
    have hl : l.isEof = false := isEof_of_peek (by rcases he with he | he <;> rw [he] <;> decide)
    dsimp only at h
    split at h
    · cases h
    · cases h
      obtain ⟨sign, hsign⟩ := advances_lexSign l.advance.2
      exact ⟨_, _, (advances_advance hl).trans hsign, rfl, rfl⟩
  next => cases h

theorem failsBehind_lexNumber (span : Span) (l : Lexer) : FailsBehind l (lexNumber span l) := by
  have hwhole := advances_advanceWhile Char.isDigit l
  obtain ⟨fraction, hfraction⟩ := advances_lexFraction (advanceWhile Char.isDigit l).2
  cases hexponent : lexExponent (lexFraction (advanceWhile Char.isDigit l).2).2 with
  | error e =>
    obtain ⟨text, l', hl', hline, hcolumn⟩ := lexExponent_error hexponent
    simp only [lexNumber, hexponent]
    exact failsBehind_error ((hwhole.trans hfraction).trans hl') hline hcolumn
  | ok exponent =>
    obtain ⟨power, hpower⟩ := advances_lexExponent hexponent
    have hall := (hwhole.trans hfraction).trans hpower
    simp only [lexNumber, hexponent, Except.ok_bind]
    split
    · split
      · exact failsBehind_ok
      · exact failsBehind_error hall rfl rfl
    · split
      · exact failsBehind_ok
      · exact failsBehind_error hall rfl rfl

theorem failsBehind_lexParameter (span : Span) {l : Lexer} (h : l.isEof = false) :
    FailsBehind l (lexParameter span l) := by
  unfold lexParameter
  dsimp only
  split
  · exact failsBehind_ok
  · exact failsBehind_error (advances_advance h) rfl rfl

theorem failsBehind_lexOperatorOrDelimiter (l : Lexer) :
    FailsBehind l (lexOperatorOrDelimiter l.currentSpan l) := by
  unfold lexOperatorOrDelimiter
  dsimp only
  split
  -- a bar and an exclamation mark need a second character
  case h_18 =>
    split
    · exact failsBehind_ok
    · exact failsBehind_span l _
  case h_19 =>
    split
    · exact failsBehind_ok
    · exact failsBehind_span l _
  case h_20 =>
    split
    · exact failsBehind_ok
    · split <;> exact failsBehind_ok
  case h_23 => exact failsBehind_span l _
  all_goals exact failsBehind_ok

theorem failsBehind_nextToken (l : Lexer) : FailsBehind l (nextToken l) := by
  have hgap : Advances l _ l.skipWhitespace := advances_advanceWhile isAsciiWhitespace l
  -- what fails behind the white space fails behind `l`
  have hskip : ∀ r, FailsBehind l.skipWhitespace r → FailsBehind l r := by
    intro r hr e he
    obtain ⟨text, l', hl', hline, hcolumn⟩ := hr e he
    exact ⟨_, l', hgap.trans hl', hline, hcolumn⟩
  unfold nextToken
  dsimp only
  split
  · exact failsBehind_ok
  next hend =>
    have hsome : l.skipWhitespace.isEof = false := by simpa using hend
    apply hskip
    split
    · exact failsBehind_ok
    split
    · exact failsBehind_lexMultiLineComment _
    split
    · exact failsBehind_lexString _
    split
    · exact failsBehind_lexNumber _ _
    split
    · exact failsBehind_ok
    split
    · exact failsBehind_lexParameter _ hsome
    · exact failsBehind_lexOperatorOrDelimiter _

theorem Stands.inText {input before : List Char} {l : Lexer} (h : Stands input before l) :
    InText input l.line l.column := by
  refine ⟨before, ⟨l.rest, h.rest.symm⟩, ?_, ?_⟩
  · exact congrArg Span.line h.span
  · exact congrArg Span.column h.span

/-- An error on the way stands in the text. -/
theorem tokenSteps_error_inText (input : List Char) (l : Lexer) :
    ∀ before e, Stands input before l → tokenSteps l = .error e → InText input e.line e.column := by
  induction l using tokenSteps.induct with
  | case1 l e' he =>
    intro before e h herror
    rw [tokenSteps_error he] at herror
    cases herror
    obtain ⟨text, l', hl', hline, hcolumn⟩ := failsBehind_nextToken l _ he
    rw [hline, hcolumn]
    exact (h.advances hl').inText
  | case2 l st l' hnext heof =>
    intro before e h herror
    rw [tokenSteps_eof hnext heof] at herror
    cases herror
  | case3 l st l' hnext heof ih =>
    intro before e h herror
    rw [tokenSteps_cons hnext heof] at herror
    obtain ⟨gap, text, hreads⟩ := reads_nextToken hnext
    apply ih _ e (h.advances hreads.advances)
    cases hlater : tokenSteps l' with
    | error e' =>
      rw [hlater] at herror
      cases herror
      rfl
    | ok later =>
      rw [hlater] at herror
      cases herror

end Lexer

/-! ## Errors of the parser -/

theorem Faithful.inText {input : List Char} {start : Nat} {tokens : List SpannedToken}
    {ends : List Nat} (h : Faithful input start tokens ends) {st : SpannedToken} (hst : st ∈ tokens) :
    InText input st.span.line st.span.column :=
  ⟨_, List.take_prefix _ _, congrArg Span.line (h.positions st hst),
    congrArg Span.column (h.positions st hst)⟩

/-- Without its comments a list of tokens ends as it did. -/
theorem exists_last_filter {tokens before : List SpannedToken} {last : SpannedToken}
    (h : tokens = before ++ [last]) (hlast : last.token = .eof) :
    ∃ front, (Parser.new tokens).tokens = front ++ [last] := by
  refine ⟨before.filter fun st => !st.token.isComment, ?_⟩
  have hkeep : last.token.isComment = false := by rw [hlast]; rfl
  rw [h, Parser.new, List.filter_append, List.filter_cons, hkeep]
  rfl

/-- A parser that stands on a list with an end has a token in front of it. -/
theorem Parser.On.exists_span {tokens front : List SpannedToken} {last : SpannedToken} {p : Parser}
    (h : p.On tokens) (htokens : tokens = front ++ [last]) (hlast : last.token = .eof) :
    ∃ st ∈ tokens, p.peekSpan = st.span := by
  have hpos : p.pos < tokens.length := by
    by_contra hge
    have hfront : front.length < p.pos := by
      rw [htokens, List.length_append] at hge
      simp only [List.length_singleton] at hge
      omega
    apply h.real front.length hfront
    rw [Parser.tokenAt, htokens, List.getElem?_append_right (le_refl _), Nat.sub_self]
    exact hlast
  refine ⟨tokens[p.pos], List.getElem_mem hpos, ?_⟩
  rw [Parser.peekSpan, h.same, List.getElem?_eq_getElem hpos]
  rfl

/-- The answers of `parse`: a program, or an error that stands in the text. -/
theorem parse_ends (debug : Token → String) (input : String) :
    (∃ program, parse debug input = some (.ok program)) ∨
      ∃ e, parse debug input = some (.error e) ∧ InText input.toList e.line e.column := by
  have hstands := Lexer.Stands.new input
  unfold parse Lexer.tokenize
  cases hsteps : Lexer.tokenSteps (Lexer.new input) with
  | error e =>
    exact .inr ⟨_, rfl, Lexer.tokenSteps_error_inText _ _ [] e hstands hsteps⟩
  | ok steps =>
    have hfaithful := Lexer.faithful_tokenSteps _ _ [] steps hstands hsteps
    obtain ⟨before, last, htokens, hlast, -, -⟩ := hfaithful.eof
    have hon : (Parser.new (steps.map Prod.fst)).On (Parser.new (steps.map Prod.fst)).tokens :=
      ⟨rfl, fun i hi => absurd hi (Nat.not_lt_zero i)⟩
    obtain ⟨front, hfront⟩ := exists_last_filter htokens hlast
    obtain ⟨-, hmeets⟩ := @ends_parse _ debug _ hon
    generalize hr : Parser.parse debug (Parser.new (steps.map Prod.fst)) = r at hmeets
    cases hmeets with
    | @value program q _ =>
      refine .inl ⟨program, ?_⟩
      show Option.map _ (Parser.parse debug (Parser.new (steps.map Prod.fst))) = _
      rw [hr]
      rfl
    | @error e he =>
      obtain ⟨p, hp, hline, hcolumn⟩ := he
      obtain ⟨st, hst, hspan⟩ := hp.exists_span hfront hlast
      refine .inr ⟨e, ?_, ?_⟩
      · show Option.map _ (Parser.parse debug (Parser.new (steps.map Prod.fst))) = _
        rw [hr]
        rfl
      · rw [hline, hcolumn, hspan]
        exact hfaithful.inText (List.mem_filter.mp hst).1

end Synaptica.Gql
