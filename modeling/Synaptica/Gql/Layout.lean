import Synaptica.Gql.ParserSteps
import Synaptica.Gql.StatementParser
import Synaptica.Gql.StringLiterals

/-!
# Layout

`Renders ts text`: the text is one way to write the tokens, with white space and comments between them
and words in any case. Two tokens may touch unless the first would go on with the character behind it.
The lexer reads the tokens back from each such text, `tokenize_renders`.
-/

namespace Synaptica.Gql

/-! ## Lexemes -/

def isWord (word : List Char) : Bool := word.head?.any beginsWord && word.all inWord

def isDigits (digits : List Char) : Bool := !digits.isEmpty && digits.all Char.isDigit

/-- The fractional part of a number, or nothing. -/
def IsFraction (text : List Char) : Prop := text = [] ∨ ∃ digits, isDigits digits ∧ text = '.' :: digits

/-- The exponent of a number, or nothing. -/
def IsExponent (text : List Char) : Prop :=
  text = [] ∨ ∃ e sign digits, (e = 'e' ∨ e = 'E') ∧ sign ∈ [[], ['+'], ['-']] ∧ isDigits digits ∧
    text = e :: (sign ++ digits)

/-- A number goes on with these. -/
def inNumber (c : Char) : Bool := c.isDigit || c == '.' || c == 'e' || c == 'E'

/-- The operators and delimiters, and the characters with which each of them would be another one. -/
def punctuation : List (List Char × Token × List Char) :=
  [(['+'], .plus, []), (['-'], .minus, ['-', '>']), (['*'], .star, []), (['/'], .slash, ['*']),
    (['%'], .percent, []), (['='], .eq, []), (['!', '='], .neq, []), (['<', '>'], .neq, []),
    (['<'], .lt, ['=', '>', '-']), (['>'], .gt, ['=']), (['<', '='], .le, []), (['>', '='], .ge, []),
    (['|', '|'], .doublePipe, []), (['.'], .dot, ['.']), (['.', '.'], .doubleDot, []),
    (['-', '>'], .arrow, []), (['<', '-'], .leftArrow, []), (['~'], .tilde, []), (['('], .lParen, []),
    ([')'], .rParen, []), (['['], .lBracket, []), ([']'], .rBracket, []), (['{'], .lBrace, []),
    (['}'], .rBrace, []), ([','], .comma, []), ([':'], .colon, []), ([';'], .semicolon, []),
    (['@'], .at_, [])]

/-- The token is written so, and goes on with the characters of which `goesOn` holds. -/
inductive Lexeme : Token → List Char → (Char → Bool) → Prop where
  | keyword {t : Token} {word : List Char} (hw : isWord word)
    (h : keywordToken (String.ofList word) = some t) : Lexeme t word inWord
  | ident {word : List Char} (hw : isWord word) (h : keywordToken (String.ofList word) = none) :
    Lexeme (.ident (String.ofList word)) word inWord
  | parameter {word : List Char} (hw : isWord word) :
    Lexeme (.parameter (String.ofList word)) ('$' :: word) inWord
  | integer {n : Int64} {digits : List Char} (hd : isDigits digits)
    (h : parseI64 (String.ofList digits) = some n) : Lexeme (.integerLit n) digits inNumber
  | float {bits : UInt64} {whole fraction exponent : List Char} (hw : isDigits whole)
    (hf : IsFraction fraction) (he : IsExponent exponent) (hne : fraction ≠ [] ∨ exponent ≠ [])
    (h : parseF64 (String.ofList (whole ++ fraction ++ exponent)) = some bits) :
    Lexeme (.floatLit bits) (whole ++ fraction ++ exponent) inNumber
  | string (s : String) : Lexeme (.stringLit s) (stringLiteral s).toList (· == '\'')
  | punctuation {entry : List Char × Token × List Char} (h : entry ∈ punctuation) :
    Lexeme entry.2.1 entry.1 entry.2.2.contains

/-- The text is a way to write the tokens. -/
inductive Renders : List Token → List Char → Prop where
  | blank {gap : List Char} (hgap : gap.all isAsciiWhitespace) : Renders [] gap
  | token {t : Token} {ts : List Token} {gap word rest : List Char} {goesOn : Char → Bool}
    (hgap : gap.all isAsciiWhitespace) (hword : Lexeme t word goesOn)
    (hrest : ∀ c ∈ rest.head?, goesOn c = false) (h : Renders ts rest) :
    Renders (t :: ts) (gap ++ (word ++ rest))
  | lineComment {ts : List Token} {gap text rest : List Char} (hgap : gap.all isAsciiWhitespace)
    (htext : '\n' ∉ text) (h : Renders ts ('\n' :: rest)) :
    Renders ts (gap ++ ('-' :: '-' :: (text ++ '\n' :: rest)))
  | blockComment {ts : List Token} {gap text rest : List Char} (hgap : gap.all isAsciiWhitespace)
    (htext : ¬ ['*', '/'] <:+: text) (h : Renders ts rest) :
    Renders ts (gap ++ ('/' :: '*' :: (text ++ '*' :: '/' :: rest)))

namespace Lexer

/-! ## Loops over a text -/

theorem advanceWhile_append {p : Char → Bool} {word rest : List Char} (hword : word.all p)
    (hrest : ∀ c ∈ rest.head?, p c = false) :
    ∀ l : Lexer, l.rest = word ++ rest → ∃ l', advanceWhile p l = (word, l') ∧ l'.rest = rest := by
  induction word with
  | nil =>
    intro l hl
    refine ⟨l, ?_, hl⟩
    rw [advanceWhile, dif_neg]
    rintro ⟨hsome, hpeek⟩
    cases rest with
    | nil =>
      rw [isEof, hl] at hsome
      cases hsome
    | cons c rest =>
      rw [peek_of_rest (c := c) hl, hrest c rfl] at hpeek
      cases hpeek
  | cons c word ih =>
    intro l hl
    simp only [List.all_cons, Bool.and_eq_true] at hword
    obtain ⟨l', hloop, hl'⟩ := ih hword.2 _ (rest_advance hl)
    refine ⟨l', ?_, hl'⟩
    rw [advanceWhile, dif_pos ⟨isEof_of_rest hl, by rw [peek_of_rest hl]; exact hword.1⟩, hloop,
      peek_of_rest hl]

theorem peek_advanceWhile {p : Char → Bool} (hnul : p '\x00' = false) (l : Lexer) :
    p (advanceWhile p l).2.peek = false := by
  induction l using advanceWhile.induct p with
  | case1 l h ih =>
    rw [advanceWhile, dif_pos h]
    exact ih
  | case2 l h =>
    rw [advanceWhile, dif_neg h]
    by_cases hsome : l.isEof = false
    · simpa [hsome] using h
    · have hnil : l.rest = [] := by simpa [isEof] using hsome
      rw [peek, hnil]
      exact hnul

theorem nextToken_skipWhitespace (l : Lexer) : nextToken l.skipWhitespace = nextToken l := by
  have hskip : l.skipWhitespace.skipWhitespace = l.skipWhitespace :=
    skipWhitespace_of_peek (peek_advanceWhile (by decide) l)
  rw [nextToken, hskip]
  rfl

theorem rest_skipWhitespace {l : Lexer} {gap rest : List Char} (hgap : gap.all isAsciiWhitespace)
    (hrest : ∀ c ∈ rest.head?, isAsciiWhitespace c = false) (hl : l.rest = gap ++ rest) :
    l.skipWhitespace.rest = rest := by
  obtain ⟨l', hloop, hl'⟩ := advanceWhile_append hgap hrest l hl
  rw [skipWhitespace, hloop]
  exact hl'

theorem peekAt_one_of_rest {l : Lexer} {c : Char} {rest : List Char} (h : l.rest = c :: rest) :
    l.peekAt 1 = rest.head? := by
  rw [peekAt, h]
  cases rest <;> rfl

/-! ## Reading a lexeme -/

/-- Behind the white space the first two characters choose the routine. -/
theorem nextToken_of_rest {l : Lexer} {c : Char} {rest : List Char} (hl : l.rest = c :: rest)
    (hc : isAsciiWhitespace c = false) :
    nextToken l = if c = '-' ∧ rest.head? = some '-' then lexSingleLineComment l.currentSpan l
      else if c = '/' ∧ rest.head? = some '*' then lexMultiLineComment l.currentSpan l
      else if c = '\'' then lexString l.currentSpan l
      else if c.isDigit then lexNumber l.currentSpan l
      else if beginsWord c then lexIdentifier l.currentSpan l
      else if c = '$' then lexParameter l.currentSpan l
      else lexOperatorOrDelimiter l.currentSpan l := by
  have hpeek : l.peek = c := peek_of_rest hl
  have hskip : l.skipWhitespace = l := skipWhitespace_of_peek (by rw [hpeek, hc])
  rw [nextToken, hskip, hpeek, peekAt_one_of_rest hl, isEof_of_rest hl]
  rfl

theorem ne_of_toNat {c d : Char} {n : Nat} (h : n ≤ c.toNat) (hd : d.toNat < n) : c ≠ d := by
  rintro rfl
  omega

theorem isAsciiWhitespace_of_le {c : Char} (h : 33 ≤ c.toNat) : isAsciiWhitespace c = false := by
  simp [isAsciiWhitespace, ne_of_toNat h]

theorem le_of_beginsWord {c : Char} (h : beginsWord c) : 65 ≤ c.toNat := by
  simp only [beginsWord, Char.isAlpha, Char.isUpper, Char.isLower, Bool.or_eq_true, Bool.and_eq_true,
    decide_eq_true_eq, beq_iff_eq] at h
  rcases h with (⟨hlow, -⟩ | ⟨hlow, -⟩) | rfl
  · exact hlow
  · exact le_trans (by decide) (show 97 ≤ c.toNat from hlow)
  · decide

theorem toNat_of_isDigit {c : Char} (h : c.isDigit) : 48 ≤ c.toNat ∧ c.toNat ≤ 57 := by
  simp only [Char.isDigit, Bool.and_eq_true, decide_eq_true_eq] at h
  exact h

theorem nextToken_word {l : Lexer} {c : Char} {rest : List Char} (hl : l.rest = c :: rest)
    (hc : beginsWord c) : nextToken l = lexIdentifier l.currentSpan l := by
  have hle := le_of_beginsWord hc
  have hdigit : ¬ c.isDigit := by
    intro h
    have := (toNat_of_isDigit h).2
    omega
  rw [nextToken_of_rest hl (isAsciiWhitespace_of_le (by omega)),
    if_neg fun h => ne_of_toNat hle (by decide) h.1, if_neg fun h => ne_of_toNat hle (by decide) h.1,
    if_neg (ne_of_toNat hle (by decide)), if_neg hdigit, if_pos hc]

theorem nextToken_number {l : Lexer} {c : Char} {rest : List Char} (hl : l.rest = c :: rest)
    (hc : c.isDigit) : nextToken l = lexNumber l.currentSpan l := by
  have hle := (toNat_of_isDigit hc).1
  rw [nextToken_of_rest hl (isAsciiWhitespace_of_le (by omega)),
    if_neg fun h => ne_of_toNat hle (by decide) h.1, if_neg fun h => ne_of_toNat hle (by decide) h.1,
    if_neg (ne_of_toNat hle (by decide)), if_pos hc]

/-- What the lexer has to do on a lexeme. -/
def ReadsBack (t : Token) (word : List Char) (goesOn : Char → Bool) : Prop :=
  ∀ (l : Lexer) (rest : List Char), l.rest = word ++ rest → (∀ c ∈ rest.head?, goesOn c = false) →
    ∃ l', nextToken l = .ok (⟨t, l.currentSpan⟩, l') ∧ l'.rest = rest

theorem readsBack_word {word : List Char} (hw : isWord word) :
    ReadsBack ((keywordToken (String.ofList word)).getD (.ident (String.ofList word))) word inWord := by
  intro l rest hl hrest
  simp only [isWord, Bool.and_eq_true] at hw
  obtain ⟨c, word, rfl⟩ := List.exists_cons_of_ne_nil (show word ≠ [] by rintro rfl; simp at hw)
  obtain ⟨l', hloop, hl'⟩ := advanceWhile_append hw.2 hrest l hl
  refine ⟨l', ?_, hl'⟩
  rw [nextToken_word hl (by simpa using hw.1)]
  simp only [lexIdentifier, hloop]

theorem readsBack_parameter {word : List Char} (hw : isWord word) :
    ReadsBack (.parameter (String.ofList word)) ('$' :: word) inWord := by
  intro l rest hl hrest
  simp only [isWord, Bool.and_eq_true] at hw
  obtain ⟨c, word, rfl⟩ := List.exists_cons_of_ne_nil (show word ≠ [] by rintro rfl; simp at hw)
  have hnext : l.advance.2.rest = c :: (word ++ rest) := rest_advance hl
  obtain ⟨l', hloop, hl'⟩ := advanceWhile_append hw.2 hrest l.advance.2 hnext
  refine ⟨l', ?_, hl'⟩
  have hparameter : nextToken l = lexParameter l.currentSpan l := by
    rw [nextToken_of_rest (c := '$') hl (by decide)]
    simp [beginsWord]
  have hbegins : l.advance.2.isEof = false ∧ beginsWord l.advance.2.peek := by
    rw [peek_of_rest hnext]
    exact ⟨isEof_of_rest hnext, by simpa using hw.1⟩
  rw [hparameter]
  simp only [lexParameter, if_pos hbegins, hloop]

/-! ## Numbers -/

theorem peek_ne {l : Lexer} {rest : List Char} {d : Char} (hl : l.rest = rest)
    (hrest : ∀ c ∈ rest.head?, c ≠ d) (hd : d ≠ '\x00') : l.peek ≠ d := by
  cases rest with
  | nil =>
    rw [peek, hl]
    exact hd.symm
  | cons c rest =>
    rw [peek_of_rest hl]
    exact hrest c rfl

theorem lexFraction_append {fraction rest : List Char} (hf : IsFraction fraction)
    (hrest : ∀ c ∈ rest.head?, c.isDigit = false ∧ c ≠ '.') (l : Lexer)
    (hl : l.rest = fraction ++ rest) : ∃ l', lexFraction l = (fraction, l') ∧ l'.rest = rest := by
  rcases hf with rfl | ⟨digits, hd, rfl⟩
  · refine ⟨l, ?_, hl⟩
    rw [lexFraction, if_neg]
    exact fun h => peek_ne hl (fun c hc => (hrest c hc).2) (by decide) h.1
  · simp only [isDigits, Bool.and_eq_true, Bool.not_eq_true', List.isEmpty_eq_false_iff] at hd
    obtain ⟨l', hloop, hl'⟩ := advanceWhile_append hd.2 (fun c hc => (hrest c hc).1) l.advance.2
      (rest_advance hl)
    refine ⟨l', ?_, hl'⟩
    have hpoint : l.peek = '.' ∧ (l.peekAt 1).any Char.isDigit := by
      obtain ⟨c, digits, rfl⟩ := List.exists_cons_of_ne_nil hd.1
      refine ⟨peek_of_rest hl, ?_⟩
      rw [peekAt_one_of_rest hl]
      simpa using List.all_eq_true.1 hd.2 c (List.mem_cons_self ..)
    rw [lexFraction, if_pos hpoint]
    simp only [hloop]

theorem lexSign_append {sign rest : List Char} (hs : sign ∈ [[], ['+'], ['-']])
    (hrest : ∀ c ∈ rest.head?, c.isDigit) (l : Lexer) (hl : l.rest = sign ++ rest) :
    ∃ l', lexSign l = (sign, l') ∧ l'.rest = rest := by
  simp only [List.mem_cons, List.not_mem_nil, or_false] at hs
  rcases hs with rfl | rfl | rfl
  · have hne : ∀ d : Char, d.toNat < 48 → d ≠ '\x00' → l.peek ≠ d := fun d hd hnul =>
      peek_ne hl (fun c hc => ne_of_toNat (toNat_of_isDigit (hrest c hc)).1 hd) hnul
    refine ⟨l, ?_, hl⟩
    rw [lexSign, if_neg]
    rintro (h | h)
    · exact hne '+' (by decide) (by decide) h
    · exact hne '-' (by decide) (by decide) h
  · have hpeek : l.peek = '+' := peek_of_rest hl
    refine ⟨l.advance.2, ?_, rest_advance hl⟩
    rw [lexSign, if_pos (.inl hpeek), hpeek]
  · have hpeek : l.peek = '-' := peek_of_rest hl
    refine ⟨l.advance.2, ?_, rest_advance hl⟩
    rw [lexSign, if_pos (.inr hpeek), hpeek]

theorem lexExponent_append {exponent rest : List Char} (he : IsExponent exponent)
    (hrest : ∀ c ∈ rest.head?, c.isDigit = false ∧ c ≠ 'e' ∧ c ≠ 'E') (l : Lexer)
    (hl : l.rest = exponent ++ rest) :
    ∃ l', lexExponent l = .ok (exponent, l') ∧ l'.rest = rest := by
  rcases he with rfl | ⟨e, sign, digits, he, hs, hd, rfl⟩
  · refine ⟨l, ?_, hl⟩
    rw [lexExponent, if_neg]
    rintro (h | h)
    · exact peek_ne hl (fun c hc => (hrest c hc).2.1) (by decide) h
    · exact peek_ne hl (fun c hc => (hrest c hc).2.2) (by decide) h
  · simp only [isDigits, Bool.and_eq_true, Bool.not_eq_true', List.isEmpty_eq_false_iff] at hd
    obtain ⟨d, digits, rfl⟩ := List.exists_cons_of_ne_nil hd.1
    have hdigit : d.isDigit := List.all_eq_true.1 hd.2 d (List.mem_cons_self ..)
    have hnext : l.advance.2.rest = sign ++ (d :: (digits ++ rest)) := by
      have h : l.advance.2.rest = sign ++ d :: digits ++ rest := rest_advance hl
      rwa [List.append_assoc] at h
    obtain ⟨l₁, hsign, hl₁⟩ := lexSign_append hs (by simpa using hdigit) _ hnext
    obtain ⟨l', hloop, hl'⟩ := advanceWhile_append hd.2 (fun c hc => (hrest c hc).1) l₁ hl₁
    have hpeek : l.peek = e := peek_of_rest hl
    have hbegins : l₁.isEof = false ∧ l₁.peek.isDigit := by
      rw [peek_of_rest hl₁]
      exact ⟨isEof_of_rest hl₁, hdigit⟩
    refine ⟨l', ?_, hl'⟩
    rw [lexExponent, hpeek, if_pos he, hsign]
    simp only [if_pos hbegins, hloop]

/-- The parts of a number, each read by its own routine. -/
theorem lexNumber_append {whole fraction exponent rest : List Char} (hw : isDigits whole)
    (hf : IsFraction fraction) (he : IsExponent exponent)
    (hrest : ∀ c ∈ rest.head?, inNumber c = false) (l : Lexer)
    (hl : l.rest = whole ++ fraction ++ exponent ++ rest) :
    ∃ l₁ l₂ l', advanceWhile Char.isDigit l = (whole, l₁) ∧ lexFraction l₁ = (fraction, l₂) ∧
      lexExponent l₂ = .ok (exponent, l') ∧ l'.rest = rest := by
  have hend : ∀ c ∈ rest.head?, c.isDigit = false ∧ c ≠ '.' ∧ c ≠ 'e' ∧ c ≠ 'E' := by
    intro c hc
    simpa [inNumber, and_assoc] using hrest c hc
  have hexponent : ∀ c ∈ (exponent ++ rest).head?, c.isDigit = false ∧ c ≠ '.' := by
    intro c hc
    rcases he with rfl | ⟨e, sign, digits, rfl | rfl, -, -, rfl⟩
    · exact ⟨(hend c hc).1, (hend c hc).2.1⟩
    · cases hc
      exact ⟨by decide, by decide⟩
    · cases hc
      exact ⟨by decide, by decide⟩
  have hfraction : ∀ c ∈ (fraction ++ (exponent ++ rest)).head?, c.isDigit = false := by
    intro c hc
    rcases hf with rfl | ⟨digits, -, rfl⟩
    · exact (hexponent c hc).1
    · cases hc
      decide
  simp only [isDigits, Bool.and_eq_true] at hw
  rw [List.append_assoc, List.append_assoc] at hl
  obtain ⟨l₁, hwhole, hl₁⟩ := advanceWhile_append hw.2 hfraction l hl
  obtain ⟨l₂, hfrac, hl₂⟩ := lexFraction_append hf hexponent l₁ hl₁
  obtain ⟨l', hexp, hl'⟩ := lexExponent_append he
    (fun c hc => ⟨(hend c hc).1, (hend c hc).2.2⟩) l₂ hl₂
  exact ⟨l₁, l₂, l', hwhole, hfrac, hexp, hl'⟩

theorem nextToken_digits {l : Lexer} {digits rest : List Char} (hd : isDigits digits)
    (hl : l.rest = digits ++ rest) : nextToken l = lexNumber l.currentSpan l := by
  simp only [isDigits, Bool.and_eq_true, Bool.not_eq_true', List.isEmpty_eq_false_iff] at hd
  obtain ⟨c, digits, rfl⟩ := List.exists_cons_of_ne_nil hd.1
  exact nextToken_number hl (List.all_eq_true.1 hd.2 c (List.mem_cons_self ..))

theorem readsBack_integer {n : Int64} {digits : List Char} (hd : isDigits digits)
    (h : parseI64 (String.ofList digits) = some n) :
    ReadsBack (.integerLit n) digits inNumber := by
  intro l rest hl hrest
  obtain ⟨l₁, l₂, l', hwhole, hfraction, hexponent, hl'⟩ :=
    lexNumber_append hd (.inl rfl) (.inl rfl) hrest l (by rwa [List.append_nil, List.append_nil])
  refine ⟨l', ?_, hl'⟩
  rw [nextToken_digits hd hl]
  simp only [lexNumber, hwhole, hfraction, hexponent, Except.ok_bind, List.append_nil, h]
  rfl

theorem readsBack_float {bits : UInt64} {whole fraction exponent : List Char} (hw : isDigits whole)
    (hf : IsFraction fraction) (he : IsExponent exponent) (hne : fraction ≠ [] ∨ exponent ≠ [])
    (h : parseF64 (String.ofList (whole ++ fraction ++ exponent)) = some bits) :
    ReadsBack (.floatLit bits) (whole ++ fraction ++ exponent) inNumber := by
  intro l rest hl hrest
  obtain ⟨l₁, l₂, l', hwhole, hfraction, hexponent, hl'⟩ := lexNumber_append hw hf he hrest l hl
  have hfloat : (!fraction.isEmpty || !exponent.isEmpty) = true := by simpa using hne
  refine ⟨l', ?_, hl'⟩
  rw [List.append_assoc, List.append_assoc] at hl
  rw [nextToken_digits hw hl]
  simp only [lexNumber, hwhole, hfraction, hexponent, Except.ok_bind, hfloat, if_true, h]

theorem readsBack_string (s : String) :
    ReadsBack (.stringLit s) (stringLiteral s).toList (· == '\'') := by
  intro l rest hl hrest
  apply nextToken_stringLiteral s _ hl
  intro h
  have hquote := hrest '\'' h
  simp at hquote

/-! ## Operators and delimiters -/

/-- The characters left to the last routine. -/
def beginsOperator (c : Char) : Bool :=
  !isAsciiWhitespace c && c != '\'' && !c.isDigit && !beginsWord c && c != '$'

theorem nextToken_operator {l : Lexer} {c : Char} {rest : List Char} (hl : l.rest = c :: rest)
    (hc : beginsOperator c) (hline : ¬ (c = '-' ∧ rest.head? = some '-'))
    (hblock : ¬ (c = '/' ∧ rest.head? = some '*')) :
    nextToken l = lexOperatorOrDelimiter l.currentSpan l := by
  simp only [beginsOperator, Bool.and_eq_true, Bool.not_eq_true', bne_iff_ne] at hc
  obtain ⟨⟨⟨⟨hspace, hquote⟩, hdigit⟩, hword⟩, hdollar⟩ := hc
  rw [nextToken_of_rest hl hspace, if_neg hline, if_neg hblock, if_neg hquote, if_neg (by simp [hdigit]),
    if_neg (by simp [hword]), if_neg hdollar]

theorem advance_fst {l : Lexer} {c : Char} {rest : List Char} (hl : l.rest = c :: rest) :
    l.advance.1 = c := by
  rw [advance, hl]
  dsimp only
  split <;> rfl

/-- A token of one character, unless it goes on. -/
theorem readsBack_one {c : Char} {t : Token} {goesOn : List Char} (hc : beginsOperator c)
    (hline : c = '-' → '-' ∈ goesOn) (hblock : c = '/' → '*' ∈ goesOn) (hnul : '\x00' ∉ goesOn)
    (h : ∀ (span : Span) (l : Lexer), l.advance.1 = c → (∀ d ∈ goesOn, l.advance.2.peek ≠ d) →
      lexOperatorOrDelimiter span l = .ok (⟨t, span⟩, l.advance.2)) :
    ReadsBack t [c] goesOn.contains := by
  intro l rest hl hrest
  have hends : ∀ d ∈ goesOn, rest.head? ≠ some d := by
    intro d hd hhead
    have hgo := hrest d hhead
    simp [hd] at hgo
  have hnext : l.advance.2.rest = rest := rest_advance hl
  refine ⟨l.advance.2, ?_, hnext⟩
  rw [nextToken_operator hl hc fun h => hends _ (hline h.1) h.2]
  · apply h _ _ (advance_fst hl)
    intro d hd
    apply peek_ne hnext
    · rintro c hhead rfl
      exact hends c hd hhead
    · rintro rfl
      exact hnul hd
  · exact fun h => hends _ (hblock h.1) h.2

/-- A token of two characters. -/
theorem readsBack_two {c d : Char} {t : Token} {goesOn : Char → Bool} (hc : beginsOperator c)
    (hline : ¬ (c = '-' ∧ d = '-')) (hblock : ¬ (c = '/' ∧ d = '*'))
    (h : ∀ (span : Span) (l : Lexer), l.advance.1 = c → l.advance.2.peek = d →
      lexOperatorOrDelimiter span l = .ok (⟨t, span⟩, l.advance.2.advance.2)) :
    ReadsBack t [c, d] goesOn := by
  intro l rest hl hrest
  have hnext : l.advance.2.rest = d :: rest := rest_advance hl
  refine ⟨l.advance.2.advance.2, ?_, rest_advance hnext⟩
  rw [nextToken_operator hl hc (by simpa using hline) (by simpa using hblock)]
  exact h _ _ (advance_fst hl) (peek_of_rest hnext)

theorem readsBack_punctuation {entry : List Char × Token × List Char} (h : entry ∈ punctuation) :
    ReadsBack entry.2.1 entry.1 entry.2.2.contains := by
  simp only [punctuation, List.mem_cons, List.not_mem_nil, or_false] at h
  rcases h with rfl | rfl | rfl | rfl | rfl | rfl | rfl | rfl | rfl | rfl | rfl | rfl | rfl | rfl |
    rfl | rfl | rfl | rfl | rfl | rfl | rfl | rfl | rfl | rfl | rfl | rfl | rfl | rfl
  all_goals first
    | apply readsBack_one (by decide) (by decide) (by decide) (by decide)
      intro span l hfst hpeek
      simp_all [lexOperatorOrDelimiter, oneOrTwo]
    | apply readsBack_two (by decide) (by decide) (by decide)
      intro span l hfst hpeek
      simp [lexOperatorOrDelimiter, oneOrTwo, hfst, hpeek]

theorem readsBack_lexeme {t : Token} {word : List Char} {goesOn : Char → Bool}
    (h : Lexeme t word goesOn) : ReadsBack t word goesOn := by
  cases h with
  | keyword hw h =>
    have hread := readsBack_word hw
    rwa [h] at hread
  | ident hw h =>
    have hread := readsBack_word hw
    rwa [h] at hread
  | parameter hw => exact readsBack_parameter hw
  | integer hd h => exact readsBack_integer hd h
  | float hw hf he hne h => exact readsBack_float hw hf he hne h
  | string s => exact readsBack_string s
  | punctuation h => exact readsBack_punctuation h

end Lexer

/-- A lexeme does not begin with white space. -/
theorem Lexeme.head {t : Token} {word : List Char} {goesOn : Char → Bool} (h : Lexeme t word goesOn) :
    ∃ c us, word = c :: us ∧ isAsciiWhitespace c = false := by
  have hwords : ∀ {word}, isWord word → ∃ c us, word = c :: us ∧ isAsciiWhitespace c = false := by
    intro word hw
    simp only [isWord, Bool.and_eq_true] at hw
    obtain ⟨c, us, rfl⟩ := List.exists_cons_of_ne_nil (show word ≠ [] by rintro rfl; simp at hw)
    have hle := Lexer.le_of_beginsWord (by simpa using hw.1)
    exact ⟨c, us, rfl, Lexer.isAsciiWhitespace_of_le (by omega)⟩
  have hnumbers : ∀ {digits}, isDigits digits →
      ∃ c us, digits = c :: us ∧ isAsciiWhitespace c = false := by
    intro digits hd
    simp only [isDigits, Bool.and_eq_true, Bool.not_eq_true', List.isEmpty_eq_false_iff] at hd
    obtain ⟨c, us, rfl⟩ := List.exists_cons_of_ne_nil hd.1
    have hle := Lexer.toNat_of_isDigit (List.all_eq_true.1 hd.2 c (List.mem_cons_self ..))
    exact ⟨c, us, rfl, Lexer.isAsciiWhitespace_of_le (by omega)⟩
  cases h with
  | keyword hw | ident hw => exact hwords hw
  | parameter => exact ⟨'$', _, rfl, by decide⟩
  | integer hd => exact hnumbers hd
  | float hw =>
    obtain ⟨c, us, rfl, hc⟩ := hnumbers hw
    exact ⟨c, _, rfl, hc⟩
  | string s => exact ⟨'\'', doubleQuotes s.toList ++ ['\''], by simp [stringLiteral], by decide⟩
  | punctuation h =>
    have hall : ∀ entry ∈ Synaptica.Gql.punctuation, (entry.1.head?.any isAsciiWhitespace) = false ∧
        entry.1 ≠ [] := by decide
    obtain ⟨hspace, hne⟩ := hall _ h
    obtain ⟨c, us, hword⟩ := List.exists_cons_of_ne_nil hne
    exact ⟨c, us, hword, by simpa [hword] using hspace⟩

theorem keywordToken_mem {word : String} {t : Token} (h : keywordToken word = some t) :
    ∃ name, (name, t) ∈ keywords := by
  obtain ⟨before, after, hlist, -⟩ := List.lookup_eq_some_iff.1 h
  exact ⟨_, by rw [hlist]; exact List.mem_append_cons_self⟩

/-- A lexeme is neither a comment nor the end of the input. -/
theorem Lexeme.token {t : Token} {word : List Char} {goesOn : Char → Bool}
    (h : Lexeme t word goesOn) : t ≠ .eof ∧ t.isComment = false := by
  cases h with
  | keyword _ h =>
    have hall : ∀ entry ∈ keywords, entry.2 ≠ .eof ∧ entry.2.isComment = false := by decide
    obtain ⟨name, hmem⟩ := keywordToken_mem h
    exact hall _ hmem
  | punctuation h =>
    have hall : ∀ entry ∈ Synaptica.Gql.punctuation, entry.2.1 ≠ .eof ∧
        entry.2.1.isComment = false := by decide
    exact hall _ h
  | _ => exact ⟨by simp, rfl⟩

namespace Lexer

/-! ## Comments -/

theorem nextToken_lineComment {l : Lexer} {text rest : List Char} (htext : '\n' ∉ text)
    (hl : l.rest = '-' :: '-' :: (text ++ '\n' :: rest)) :
    ∃ l', nextToken l = .ok (⟨.comment (String.ofList text), l.currentSpan⟩, l') ∧
      l'.rest = '\n' :: rest := by
  have hbody : text.all (· != '\n') := by
    simp only [List.all_eq_true, bne_iff_ne]
    rintro c hc rfl
    exact htext hc
  obtain ⟨l', hloop, hl'⟩ := advanceWhile_append hbody (by simp) l.advance.2.advance.2
    (rest_advance (rest_advance hl))
  refine ⟨l', ?_, hl'⟩
  rw [nextToken_of_rest hl (by decide), if_pos (by simp)]
  simp only [lexSingleLineComment, hloop]

/-- The loop of a comment stops at the first characters that close it. -/
theorem commentLoop_append {text rest : List Char} (htext : ¬ ['*', '/'] <:+: text) :
    ∀ l : Lexer, l.rest = text ++ '*' :: '/' :: rest →
      ∃ l', commentLoop l = some (text, l') ∧ l'.rest = rest := by
  induction text with
  | nil =>
    intro l hl
    have hclose : l.peek = '*' ∧ l.peekAt 1 = some '/' :=
      ⟨peek_of_rest hl, peekAt_one_of_rest (c := '*') hl⟩
    refine ⟨l.advance.2.advance.2, ?_, rest_advance (rest_advance hl)⟩
    rw [commentLoop, dif_pos (isEof_of_rest hl), if_pos hclose]
  | cons c text ih =>
    intro l hl
    obtain ⟨l', hloop, hl'⟩ := ih (fun h => htext (h.trans (List.infix_cons (List.infix_refl _))))
      l.advance.2 (rest_advance hl)
    refine ⟨l', ?_, hl'⟩
    have hopen : ¬ (l.peek = '*' ∧ l.peekAt 1 = some '/') := by
      rw [peek_of_rest hl, peekAt_one_of_rest hl]
      rintro ⟨rfl, hslash⟩
      cases text with
      | nil => simp at hslash
      | cons d text =>
        obtain rfl : d = '/' := by simpa using hslash
        exact htext ⟨[], text, rfl⟩
    rw [commentLoop, dif_pos (isEof_of_rest hl), if_neg hopen, hloop, peek_of_rest hl]
    rfl

theorem nextToken_blockComment {l : Lexer} {text rest : List Char} (htext : ¬ ['*', '/'] <:+: text)
    (hl : l.rest = '/' :: '*' :: (text ++ '*' :: '/' :: rest)) :
    ∃ l', nextToken l = .ok (⟨.comment (String.ofList text), l.currentSpan⟩, l') ∧ l'.rest = rest := by
  obtain ⟨l', hloop, hl'⟩ := commentLoop_append htext l.advance.2.advance.2
    (rest_advance (rest_advance hl))
  refine ⟨l', ?_, hl'⟩
  rw [nextToken_of_rest hl (by decide), if_neg (by simp), if_pos (by simp)]
  simp only [lexMultiLineComment, hloop]

/-! ## The tokens of a text -/

/-- The steps are over the tokens, and over comments between them. -/
def StepsOver (l : Lexer) (ts : List Token) : Prop :=
  ∃ steps, tokenSteps l = .ok steps ∧
    ((steps.map Prod.fst).filter fun st => !st.token.isComment).map SpannedToken.token = ts ++ [.eof]

theorem stepsOver_token {l l' : Lexer} {t : Token} {span : Span} {ts : List Token}
    (h : nextToken l = .ok (⟨t, span⟩, l')) (ht : t ≠ .eof) (hcomment : t.isComment = false)
    (hl' : StepsOver l' ts) : StepsOver l (t :: ts) := by
  obtain ⟨steps, hsteps, htokens⟩ := hl'
  refine ⟨(⟨t, span⟩, l') :: steps, ?_, ?_⟩
  · rw [tokenSteps_cons h ht, hsteps]
    rfl
  · simp [hcomment, htokens]

theorem stepsOver_comment {l l' : Lexer} {text : String} {span : Span} {ts : List Token}
    (h : nextToken l = .ok (⟨.comment text, span⟩, l')) (hl' : StepsOver l' ts) : StepsOver l ts := by
  obtain ⟨steps, hsteps, htokens⟩ := hl'
  refine ⟨(⟨.comment text, span⟩, l') :: steps, ?_, ?_⟩
  · rw [tokenSteps_cons h (by simp), hsteps]
    rfl
  · rw [List.map_cons, List.filter_cons_of_neg (by simp [Token.isComment]), htokens]

theorem stepsOver_renders {ts : List Token} {text : List Char} (h : Renders ts text) :
    ∀ l : Lexer, l.rest = text → StepsOver l ts := by
  induction h with
  | blank hgap =>
    intro l hl
    have hrest := @rest_skipWhitespace _ _ [] hgap (by simp) (by rw [hl, List.append_nil])
    have hend := nextToken_of_rest_nil hrest
    rw [nextToken_skipWhitespace] at hend
    exact ⟨_, tokenSteps_eof hend rfl, rfl⟩
  | token hgap hword hrest _ ih =>
    intro l hl
    obtain ⟨c, us, hhead, hc⟩ := hword.head
    have hskip := rest_skipWhitespace hgap (by rw [hhead]; simpa using hc) hl
    obtain ⟨l', hnext, hl'⟩ := readsBack_lexeme hword _ _ hskip hrest
    rw [nextToken_skipWhitespace] at hnext
    exact stepsOver_token hnext hword.token.1 hword.token.2 (ih l' hl')
  | lineComment hgap htext _ ih =>
    intro l hl
    obtain ⟨l', hnext, hl'⟩ := nextToken_lineComment htext (rest_skipWhitespace hgap (by simp; decide) hl)
    rw [nextToken_skipWhitespace] at hnext
    exact stepsOver_comment hnext (ih l' hl')
  | blockComment hgap htext _ ih =>
    intro l hl
    obtain ⟨l', hnext, hl'⟩ := nextToken_blockComment htext (rest_skipWhitespace hgap (by simp; decide) hl)
    rw [nextToken_skipWhitespace] at hnext
    exact stepsOver_comment hnext (ih l' hl')

end Lexer

/-- The parser stands in front of the tokens, the comments dropped. -/
theorem tokenize_renders {ts : List Token} {input : String} (h : Renders ts input.toList) :
    ∃ tokens, (Lexer.new input).tokenize = .ok tokens ∧
      (Parser.new tokens).ahead = ts ++ [.eof] := by
  obtain ⟨steps, hsteps, htokens⟩ := Lexer.stepsOver_renders h (Lexer.new input) rfl
  exact ⟨steps.map Prod.fst, by rw [Lexer.tokenize, hsteps]; rfl, htokens⟩

end Synaptica.Gql
