import Synaptica.Core.Float
import Synaptica.Lib.Fallible

/-!
# The lexer

`synaptica_gql::lexer`. The lexer walks over the characters of its input and keeps their line and
column. What a routine does to these counters is said by one relation, `Lexer.Advances`: it consumed
a text, and the counters are where that text ends. Every token but the last consumes some text, which
is also why `tokenize` ends.
-/

namespace Synaptica.Gql

/-! ## Tokens -/

structure Span where
  line : Nat
  column : Nat
  offset : Nat
  deriving DecidableEq, Repr

inductive Token where
  -- Keywords
  | match_ | where_ | return_ | create | insert | delete | set | remove | drop | graph | type | node
  | edge | true_ | false_ | null | not | and | or | xor | is | in_ | like | as | by_ | order | asc
  | desc | limit | offset | group | having | with_ | let_ | for_ | filter | call | yield | optional
  | mandatory | exists_ | case | when | then_ | else_ | end_ | union | intersect | except | all
  | distinct | count | sum | avg | min | max | collect | walk | trail | simple | acyclic | shortest
  | path | any | commit | rollback | begin | if_ | detach | nodetach | cost | of | to | from_ | index
  | unique | on | list
  -- Literals
  | integerLit (n : Int64)
  | floatLit (bits : UInt64)
  | stringLit (s : String)
  | boolLit (b : Bool)
  | nullLit
  -- Identifiers & parameters
  | ident (name : String)
  | parameter (name : String)
  -- Operators
  | plus | minus | star | slash | percent | eq | neq | lt | gt | le | ge | doublePipe | dot | doubleDot
  | arrow | leftArrow | tilde
  -- Delimiters
  | lParen | rParen | lBracket | rBracket | lBrace | rBrace | comma | colon | semicolon | at_
  -- Special
  | eof
  | comment (text : String)
  deriving DecidableEq, Repr

structure SpannedToken where
  token : Token
  span : Span
  deriving DecidableEq, Repr

structure LexerError where
  message : String
  line : Nat
  column : Nat
  deriving DecidableEq, Repr

/-- The keywords, in upper case. -/
def keywords : List (String × Token) :=
  [("MATCH", .match_), ("WHERE", .where_), ("RETURN", .return_), ("CREATE", .create),
    ("INSERT", .insert), ("DELETE", .delete), ("SET", .set), ("REMOVE", .remove), ("DROP", .drop),
    ("GRAPH", .graph), ("TYPE", .type), ("NODE", .node), ("EDGE", .edge), ("TRUE", .true_),
    ("FALSE", .false_), ("NULL", .null), ("NOT", .not), ("AND", .and), ("OR", .or), ("XOR", .xor),
    ("IS", .is), ("IN", .in_), ("LIKE", .like), ("AS", .as), ("BY", .by_), ("ORDER", .order),
    ("ASC", .asc), ("DESC", .desc), ("LIMIT", .limit), ("OFFSET", .offset), ("GROUP", .group),
    ("HAVING", .having), ("WITH", .with_), ("LET", .let_), ("FOR", .for_), ("FILTER", .filter),
    ("CALL", .call), ("YIELD", .yield), ("OPTIONAL", .optional), ("MANDATORY", .mandatory),
    ("EXISTS", .exists_), ("CASE", .case), ("WHEN", .when), ("THEN", .then_), ("ELSE", .else_),
    ("END", .end_), ("UNION", .union), ("INTERSECT", .intersect), ("EXCEPT", .except), ("ALL", .all),
    ("DISTINCT", .distinct), ("COUNT", .count), ("SUM", .sum), ("AVG", .avg), ("MIN", .min),
    ("MAX", .max), ("COLLECT", .collect), ("WALK", .walk), ("TRAIL", .trail), ("SIMPLE", .simple),
    ("ACYCLIC", .acyclic), ("SHORTEST", .shortest), ("PATH", .path), ("ANY", .any),
    ("COMMIT", .commit), ("ROLLBACK", .rollback), ("BEGIN", .begin), ("IF", .if_),
    ("DETACH", .detach), ("NODETACH", .nodetach), ("COST", .cost), ("OF", .of), ("TO", .to),
    ("FROM", .from_), ("INDEX", .index), ("UNIQUE", .unique), ("ON", .on), ("LIST", .list)]

def keywordToken (word : String) : Option Token :=
  keywords.lookup (String.ofList (word.toList.map Char.toUpper))

/-- `char::is_ascii_whitespace`. -/
def isAsciiWhitespace (c : Char) : Bool :=
  c == ' ' || c == '\t' || c == '\n' || c == '\x0c' || c == '\r'

/-- The characters that begin an identifier. -/
def beginsWord (c : Char) : Bool := c.isAlpha || c == '_'

/-- The characters of an identifier. -/
def inWord (c : Char) : Bool := c.isAlphanum || c == '_'

/-! ## The state -/

structure Lexer where
  /-- The characters of the input from `pos` on. -/
  rest : List Char
  pos : Nat
  line : Nat
  column : Nat
  deriving DecidableEq, Repr

namespace Lexer

def new (input : String) : Lexer := ⟨input.toList, 0, 1, 1⟩

def isEof (l : Lexer) : Bool := l.rest.isEmpty

def peek (l : Lexer) : Char := l.rest.headD '\x00'

def peekAt (l : Lexer) (offset : Nat) : Option Char := l.rest[offset]?

def advance (l : Lexer) : Char × Lexer :=
  match l.rest with
  | [] => ('\x00', l)
  | ch :: rest =>
    if ch = '\n' then (ch, ⟨rest, l.pos + 1, l.line + 1, 1⟩)
    else (ch, ⟨rest, l.pos + 1, l.line, l.column + 1⟩)

def currentSpan (l : Lexer) : Span := ⟨l.line, l.column, l.pos⟩

def error (l : Lexer) (msg : String) : LexerError := ⟨msg, l.line, l.column⟩

/-- What a routine answers: a token and the lexer behind it. -/
abbrev Lexed := Except LexerError (SpannedToken × Lexer)

/-! ## What advancing does -/

/-- The position behind one character more. -/
def nextSpan (s : Span) (ch : Char) : Span :=
  if ch = '\n' then ⟨s.line + 1, 1, s.offset + 1⟩ else ⟨s.line, s.column + 1, s.offset + 1⟩

/-- The lexer consumed the text, and counted it. -/
structure Advances (l : Lexer) (text : List Char) (l' : Lexer) : Prop where
  rest : l.rest = text ++ l'.rest
  span : l'.currentSpan = text.foldl nextSpan l.currentSpan

theorem Advances.refl (l : Lexer) : Advances l [] l := ⟨rfl, rfl⟩

theorem Advances.trans {l l' l'' : Lexer} {text text' : List Char} (h : Advances l text l')
    (h' : Advances l' text' l'') : Advances l (text ++ text') l'' where
  rest := by rw [h.rest, h'.rest, List.append_assoc]
  span := by rw [h'.span, h.span, List.foldl_append]

/-- Before the end of the input, `advance` consumes the character that `peek` sees. -/
theorem advances_advance {l : Lexer} (h : l.isEof = false) : Advances l [l.peek] l.advance.2 := by
  obtain ⟨rest, pos, line, column⟩ := l
  cases rest with
  | nil => cases h
  | cons ch rest =>
    by_cases hch : ch = '\n'
    · subst hch
      exact ⟨rfl, rfl⟩
    · exact ⟨by simp [advance, peek, hch], by simp [advance, currentSpan, nextSpan, peek, hch]⟩

/-- At the end of the input `peek` sees NUL. -/
theorem isEof_of_peek {l : Lexer} (h : l.peek ≠ '\x00') : l.isEof = false := by
  obtain ⟨rest, pos, line, column⟩ := l
  cases rest with
  | nil => exact absurd rfl h
  | cons ch rest => rfl

theorem Advances.length_lt {l l' : Lexer} {text : List Char} (h : Advances l text l')
    (htext : text ≠ []) : l'.rest.length < l.rest.length := by
  rw [h.rest, List.length_append]
  have hpos := List.length_pos_iff.mpr htext
  omega

theorem length_advance_lt {l : Lexer} (h : l.isEof = false) :
    l.advance.2.rest.length < l.rest.length :=
  (advances_advance h).length_lt (List.cons_ne_nil _ _)

/-! ## Loops -/

/-- Advance as long as the next character satisfies `p`: the text, and the lexer behind it. -/
def advanceWhile (p : Char → Bool) (l : Lexer) : List Char × Lexer :=
  if _h : l.isEof = false ∧ p l.peek then
    let after := advanceWhile p l.advance.2
    (l.peek :: after.1, after.2)
  else ([], l)
termination_by l.rest.length
decreasing_by exact length_advance_lt _h.1

theorem advances_advanceWhile (p : Char → Bool) (l : Lexer) :
    Advances l (advanceWhile p l).1 (advanceWhile p l).2 := by
  induction l using advanceWhile.induct p with
  | case1 l h ih =>
    rw [advanceWhile, dif_pos h]
    exact (advances_advance h.1).trans ih
  | case2 l h =>
    rw [advanceWhile, dif_neg h]
    exact .refl l

theorem all_advanceWhile (p : Char → Bool) (l : Lexer) : ∀ c ∈ (advanceWhile p l).1, p c := by
  induction l using advanceWhile.induct p with
  | case1 l h ih =>
    rw [advanceWhile, dif_pos h]
    intro c hc
    rcases List.mem_cons.mp hc with rfl | hmem
    · exact h.2
    · exact ih c hmem
  | case2 l h =>
    rw [advanceWhile, dif_neg h]
    exact fun c hc => absurd hc List.not_mem_nil

theorem advanceWhile_ne_nil {p : Char → Bool} {l : Lexer} (h : l.isEof = false) (hp : p l.peek) :
    (advanceWhile p l).1 ≠ [] := by
  rw [advanceWhile, dif_pos ⟨h, hp⟩]
  exact List.cons_ne_nil _ _

def skipWhitespace (l : Lexer) : Lexer := (advanceWhile isAsciiWhitespace l).2

/-- The loop of a multi-line comment, up to the characters that close it. -/
def commentLoop (l : Lexer) : Option (List Char × Lexer) :=
  if _h : l.isEof = false then
    if l.peek = '*' ∧ l.peekAt 1 = some '/' then some ([], l.advance.2.advance.2)
    else (commentLoop l.advance.2).map fun after => (l.peek :: after.1, after.2)
  else none
termination_by l.rest.length
decreasing_by exact length_advance_lt _h

/-- The loop of a string literal, up to the quote that closes it: the string, and the lexer behind
it. Two quotes are one. -/
def stringLoop (l : Lexer) : Option (List Char × Lexer) :=
  if _h : l.isEof = false then
    if l.peek = '\'' then
      if _h' : l.advance.2.isEof = false ∧ l.advance.2.peek = '\'' then
        (stringLoop l.advance.2.advance.2).map fun after => ('\'' :: after.1, after.2)
      else some ([], l.advance.2)
    else (stringLoop l.advance.2).map fun after => (l.peek :: after.1, after.2)
  else none
termination_by l.rest.length
decreasing_by
  · exact (length_advance_lt _h'.1).trans (length_advance_lt _h)
  · exact length_advance_lt _h

/-! ## Lexing routines -/

def lexSingleLineComment (span : Span) (l : Lexer) : Lexed :=
  let after := advanceWhile (· != '\n') l.advance.2.advance.2
  .ok (⟨.comment (String.ofList after.1), span⟩, after.2)

def lexMultiLineComment (span : Span) (l : Lexer) : Lexed :=
  match commentLoop l.advance.2.advance.2 with
  | some (text, l) => .ok (⟨.comment (String.ofList text), span⟩, l)
  | none => .error ⟨"unterminated multi-line comment", span.line, span.column⟩

def lexString (span : Span) (l : Lexer) : Lexed :=
  match stringLoop l.advance.2 with
  | some (s, l) => .ok (⟨.stringLit (String.ofList s), span⟩, l)
  | none => .error ⟨"unterminated string literal", span.line, span.column⟩

/-- The fractional part of a number, or nothing. -/
def lexFraction (l : Lexer) : List Char × Lexer :=
  if l.peek = '.' ∧ (l.peekAt 1).any Char.isDigit then
    let digits := advanceWhile Char.isDigit l.advance.2
    ('.' :: digits.1, digits.2)
  else ([], l)

/-- The sign of an exponent, or nothing. -/
def lexSign (l : Lexer) : List Char × Lexer :=
  if l.peek = '+' ∨ l.peek = '-' then ([l.peek], l.advance.2) else ([], l)

/-- The exponent of a number, or nothing. -/
def lexExponent (l : Lexer) : Except LexerError (List Char × Lexer) :=
  if l.peek = 'e' ∨ l.peek = 'E' then
    let sign := lexSign l.advance.2
    if sign.2.isEof = false ∧ sign.2.peek.isDigit then
      let digits := advanceWhile Char.isDigit sign.2
      .ok (l.peek :: (sign.1 ++ digits.1), digits.2)
    else .error (sign.2.error "invalid numeric literal: expected digit after exponent")
  else .ok ([], l)

def lexNumber (span : Span) (l : Lexer) : Lexed := do
  let whole := advanceWhile Char.isDigit l
  let fraction := lexFraction whole.2
  let exponent ← lexExponent fraction.2
  let text := String.ofList (whole.1 ++ fraction.1 ++ exponent.1)
  let isFloat := !fraction.1.isEmpty || !exponent.1.isEmpty
  if isFloat then
    match parseF64 text with
    | some val => .ok (⟨.floatLit val, span⟩, exponent.2)
    | none => .error (exponent.2.error ("invalid float literal: " ++ text))
  else
    match parseI64 text with
    | some val => .ok (⟨.integerLit val, span⟩, exponent.2)
    | none => .error (exponent.2.error ("invalid integer literal: " ++ text))

def lexIdentifier (span : Span) (l : Lexer) : Lexed :=
  let after := advanceWhile inWord l
  let word := String.ofList after.1
  .ok (⟨(keywordToken word).getD (.ident word), span⟩, after.2)

def lexParameter (span : Span) (l : Lexer) : Lexed :=
  let l := l.advance.2
  if l.isEof = false ∧ beginsWord l.peek then
    let after := advanceWhile inWord l
    .ok (⟨.parameter (String.ofList after.1), span⟩, after.2)
  else .error (l.error "expected parameter name after '$'")

/-- An operator of one character, or of two when the second one follows. -/
def oneOrTwo (span : Span) (l : Lexer) (second : Char) (two one : Token) : SpannedToken × Lexer :=
  if l.peek = second then (⟨two, span⟩, l.advance.2) else (⟨one, span⟩, l)

def lexOperatorOrDelimiter (span : Span) (l : Lexer) : Lexed :=
  let ch := l.advance.1
  let l := l.advance.2
  let single (token : Token) : Lexed := .ok (⟨token, span⟩, l)
  match ch with
  | '+' => single .plus
  | '*' => single .star
  | '/' => single .slash
  | '%' => single .percent
  | '~' => single .tilde
  | '(' => single .lParen
  | ')' => single .rParen
  | '[' => single .lBracket
  | ']' => single .rBracket
  | '{' => single .lBrace
  | '}' => single .rBrace
  | ',' => single .comma
  | ':' => single .colon
  | ';' => single .semicolon
  | '@' => single .at_
  | '=' => single .eq
  | '.' => .ok (oneOrTwo span l '.' .doubleDot .dot)
  | '|' =>
    if l.peek = '|' then .ok (⟨.doublePipe, span⟩, l.advance.2)
    else .error ⟨"unexpected character '|'; did you mean '||'?", span.line, span.column⟩
  | '!' =>
    if l.peek = '=' then .ok (⟨.neq, span⟩, l.advance.2)
    else .error ⟨"unexpected character '!'; did you mean '!='?", span.line, span.column⟩
  | '<' =>
    if l.peek = '=' then .ok (⟨.le, span⟩, l.advance.2)
    else if l.peek = '>' then .ok (⟨.neq, span⟩, l.advance.2)
    else .ok (oneOrTwo span l '-' .leftArrow .lt)
  | '>' => .ok (oneOrTwo span l '=' .ge .gt)
  | '-' => .ok (oneOrTwo span l '>' .arrow .minus)
  | _ => .error ⟨"unexpected character '" ++ String.ofList [ch] ++ "'", span.line, span.column⟩

def nextToken (l : Lexer) : Lexed :=
  let l := l.skipWhitespace
  let span := l.currentSpan
  if l.isEof then .ok (⟨.eof, span⟩, l)
  else
    let ch := l.peek
    if ch = '-' ∧ l.peekAt 1 = some '-' then lexSingleLineComment span l
    else if ch = '/' ∧ l.peekAt 1 = some '*' then lexMultiLineComment span l
    else if ch = '\'' then lexString span l
    else if ch.isDigit then lexNumber span l
    else if beginsWord ch then lexIdentifier span l
    else if ch = '$' then lexParameter span l
    else lexOperatorOrDelimiter span l

/-! ## What the routines consume -/

/-- A character is left after the next one: two can be consumed. -/
theorem advances_two {l : Lexer} {c : Char} (h : l.peekAt 1 = some c) :
    Advances l [l.peek, c] l.advance.2.advance.2 := by
  have hl : l.isEof = false ∧ l.advance.2.isEof = false ∧ l.advance.2.peek = c := by
    obtain ⟨rest, pos, line, column⟩ := l
    match rest, h with
    | ch :: _ :: _, h =>
      cases h
      by_cases hch : ch = '\n' <;> simp [advance, isEof, peek, hch]
  have h1 := advances_advance hl.1
  have h2 := advances_advance hl.2.1
  rw [hl.2.2] at h2
  exact h1.trans h2

/-- The loop of a comment ends behind the characters that close it. -/
theorem advances_commentLoop (l : Lexer) :
    ∀ after, commentLoop l = some after → ∃ text, Advances l text after.2 := by
  induction l using commentLoop.induct with
  | case1 l h hclose =>
    intro after hafter
    rw [commentLoop, dif_pos h, if_pos hclose] at hafter
    cases hafter
    exact ⟨_, advances_two hclose.2⟩
  | case2 l h hclose ih =>
    intro after hafter
    rw [commentLoop, dif_pos h, if_neg hclose] at hafter
    obtain ⟨later, hlater, rfl⟩ := Option.map_eq_some_iff.mp hafter
    obtain ⟨text, htext⟩ := ih later hlater
    exact ⟨_, (advances_advance h).trans htext⟩
  | case3 l h =>
    intro after hafter
    rw [commentLoop, dif_neg h] at hafter
    cases hafter

/-- The loop of a string literal ends behind the quote that closes it. -/
theorem advances_stringLoop (l : Lexer) :
    ∀ after, stringLoop l = some after → ∃ text, Advances l text after.2 := by
  induction l using stringLoop.induct with
  | case1 l h hquote hagain ih =>
    intro after hafter
    rw [stringLoop, dif_pos h, if_pos hquote, dif_pos hagain] at hafter
    obtain ⟨later, hlater, rfl⟩ := Option.map_eq_some_iff.mp hafter
    obtain ⟨text, htext⟩ := ih later hlater
    exact ⟨_, ((advances_advance h).trans (advances_advance hagain.1)).trans htext⟩
  | case2 l h hquote hagain =>
    intro after hafter
    rw [stringLoop, dif_pos h, if_pos hquote, dif_neg hagain] at hafter
    cases hafter
    exact ⟨_, advances_advance h⟩
  | case3 l h hquote ih =>
    intro after hafter
    rw [stringLoop, dif_pos h, if_neg hquote] at hafter
    obtain ⟨later, hlater, rfl⟩ := Option.map_eq_some_iff.mp hafter
    obtain ⟨text, htext⟩ := ih later hlater
    exact ⟨_, (advances_advance h).trans htext⟩
  | case4 l h =>
    intro after hafter
    rw [stringLoop, dif_neg h] at hafter
    cases hafter

theorem advances_lexFraction (l : Lexer) : ∃ text, Advances l text (lexFraction l).2 := by
  unfold lexFraction
  split
  next h =>
    have hdot : l.isEof = false := isEof_of_peek (by rw [h.1]; decide)
    exact ⟨_, (advances_advance hdot).trans (advances_advanceWhile _ _)⟩
  next => exact ⟨[], .refl l⟩

theorem advances_lexSign (l : Lexer) : ∃ text, Advances l text (lexSign l).2 := by
  unfold lexSign
  split
  next h =>
    have hsign : l.isEof = false := isEof_of_peek (by rcases h with h | h <;> rw [h] <;> decide)
    exact ⟨_, advances_advance hsign⟩
  next => exact ⟨[], .refl l⟩

theorem advances_lexExponent {l : Lexer} {after : List Char × Lexer}
    (h : lexExponent l = .ok after) : ∃ text, Advances l text after.2 := by
  unfold lexExponent at h
  split at h
  next he =>
    have hl : l.isEof = false := isEof_of_peek (by rcases he with he | he <;> rw [he] <;> decide)
    dsimp only at h
    split at h
    · cases h
      obtain ⟨sign, hsign⟩ := advances_lexSign l.advance.2
      exact ⟨_, ((advances_advance hl).trans hsign).trans (advances_advanceWhile _ _)⟩
    · cases h
  next =>
    cases h
    exact ⟨[], .refl l⟩

/-- A routine that begins at `l`, in front of the span, and answers with a token: it consumed some
text, and the token is not the last one. -/
def Consumes (span : Span) (l : Lexer) (r : Lexed) : Prop :=
  ∀ st l', r = .ok (st, l') →
    st.span = span ∧ st.token ≠ .eof ∧ ∃ text, text ≠ [] ∧ Advances l text l'

theorem consumes_error (span : Span) (l : Lexer) (e : LexerError) : Consumes span l (.error e) := by
  intro st l' h
  cases h

theorem consumes_ok {span : Span} {l l' : Lexer} {token : Token} {text : List Char}
    (htoken : token ≠ .eof) (htext : text ≠ []) (h : Advances l text l') :
    Consumes span l (.ok (⟨token, span⟩, l')) := by
  intro st l'' hok
  cases hok
  exact ⟨rfl, htoken, text, htext, h⟩

theorem consumes_lexSingleLineComment (span : Span) {l : Lexer} {c : Char}
    (h : l.peekAt 1 = some c) : Consumes span l (lexSingleLineComment span l) := by
  apply consumes_ok (by simp) (List.cons_ne_nil _ _)
  exact (advances_two h).trans (advances_advanceWhile _ _)

theorem consumes_lexMultiLineComment (span : Span) {l : Lexer} {c : Char}
    (h : l.peekAt 1 = some c) : Consumes span l (lexMultiLineComment span l) := by
  unfold lexMultiLineComment
  cases hloop : commentLoop l.advance.2.advance.2 with
  | none => exact consumes_error _ _ _
  | some after =>
    obtain ⟨text, htext⟩ := advances_commentLoop _ _ hloop
    exact consumes_ok (by simp) (List.cons_ne_nil _ _) ((advances_two h).trans htext)

theorem consumes_lexString (span : Span) {l : Lexer} (h : l.isEof = false) :
    Consumes span l (lexString span l) := by
  unfold lexString
  cases hloop : stringLoop l.advance.2 with
  | none => exact consumes_error _ _ _
  | some after =>
    obtain ⟨text, htext⟩ := advances_stringLoop _ _ hloop
    exact consumes_ok (by simp) (List.cons_ne_nil _ _) ((advances_advance h).trans htext)

/-- A number consumes at least the digit it begins with. -/
theorem consumes_lexNumber (span : Span) {l : Lexer} (h : l.isEof = false)
    (hdigit : l.peek.isDigit) : Consumes span l (lexNumber span l) := by
  cases hexponent : lexExponent (lexFraction (advanceWhile Char.isDigit l).2).2 with
  | error e =>
    simp only [lexNumber, hexponent]
    exact consumes_error _ _ _
  | ok exponent =>
    have hwhole := advanceWhile_ne_nil (p := Char.isDigit) h hdigit
    obtain ⟨fraction, hfraction⟩ := advances_lexFraction (advanceWhile Char.isDigit l).2
    obtain ⟨power, hpower⟩ := advances_lexExponent hexponent
    have hall := ((advances_advanceWhile Char.isDigit l).trans hfraction).trans hpower
    have hne : (advanceWhile Char.isDigit l).1 ++ fraction ++ power ≠ [] := by simp [hwhole]
    simp only [lexNumber, hexponent, Except.ok_bind]
    split
    · split
      · exact consumes_ok (by simp) hne hall
      · exact consumes_error _ _ _
    · split
      · exact consumes_ok (by simp) hne hall
      · exact consumes_error _ _ _

/-- No keyword is read as the end of the input. -/
theorem keywordToken_ne_eof {word : String} {token : Token} (h : keywordToken word = some token) :
    token ≠ .eof := by
  have hkeys : ∀ entry ∈ keywords, entry.2 ≠ .eof := by decide
  obtain ⟨before, after, hlist, -⟩ := List.lookup_eq_some_iff.mp h
  exact hkeys (_, token) (by rw [hlist]; exact List.mem_append_cons_self)

theorem consumes_lexIdentifier (span : Span) {l : Lexer} (h : l.isEof = false)
    (hword : beginsWord l.peek) : Consumes span l (lexIdentifier span l) := by
  have hin : inWord l.peek := by
    simp only [beginsWord, inWord, Char.isAlphanum, Bool.or_eq_true] at hword ⊢
    exact hword.imp_left .inl
  apply consumes_ok _ (advanceWhile_ne_nil h hin) (advances_advanceWhile _ _)
  cases hkeyword : keywordToken (String.ofList (advanceWhile inWord l).1) with
  | none => simp
  | some token => exact keywordToken_ne_eof hkeyword

theorem consumes_lexParameter (span : Span) {l : Lexer} (h : l.isEof = false) :
    Consumes span l (lexParameter span l) := by
  unfold lexParameter
  dsimp only
  split
  · apply consumes_ok (by simp) (List.cons_ne_nil _ _)
    exact (advances_advance h).trans (advances_advanceWhile _ _)
  · exact consumes_error _ _ _

theorem consumes_oneOrTwo (span : Span) {l l' : Lexer} {text : List Char} (htext : text ≠ [])
    (h : Advances l text l') {second : Char} (hsecond : second ≠ '\x00') {two one : Token}
    (htwo : two ≠ .eof) (hone : one ≠ .eof) :
    Consumes span l (.ok (oneOrTwo span l' second two one)) := by
  unfold oneOrTwo
  split
  next hpeek =>
    have hl' : l'.isEof = false := isEof_of_peek (by rw [hpeek]; exact hsecond)
    exact consumes_ok htwo (by simp [htext]) (h.trans (advances_advance hl'))
  next => exact consumes_ok hone htext h

theorem consumes_lexOperatorOrDelimiter (span : Span) {l : Lexer} (h : l.isEof = false) :
    Consumes span l (lexOperatorOrDelimiter span l) := by
  have hone := advances_advance h
  have hsingle : ∀ token : Token, token ≠ .eof →
      Consumes span l (.ok (⟨token, span⟩, l.advance.2)) :=
    fun token htoken => consumes_ok htoken (List.cons_ne_nil _ _) hone
  have hdouble : ∀ (token : Token) (second : Char), token ≠ .eof → second ≠ '\x00' →
      l.advance.2.peek = second →
      Consumes span l (.ok (⟨token, span⟩, l.advance.2.advance.2)) := by
    intro token second htoken hsecond hpeek
    have hl : l.advance.2.isEof = false := isEof_of_peek (by rw [hpeek]; exact hsecond)
    exact consumes_ok htoken (List.cons_ne_nil _ _) (hone.trans (advances_advance hl))
  unfold lexOperatorOrDelimiter
  dsimp only
  split
  -- a dot, a greater-than sign and a minus may be followed by a second character
  case h_17 => exact consumes_oneOrTwo span (List.cons_ne_nil _ _) hone (by decide) (by simp) (by simp)
  case h_21 => exact consumes_oneOrTwo span (List.cons_ne_nil _ _) hone (by decide) (by simp) (by simp)
  case h_22 => exact consumes_oneOrTwo span (List.cons_ne_nil _ _) hone (by decide) (by simp) (by simp)
  -- a bar and an exclamation mark must be
  case h_18 =>
    split
    next hpeek => exact hdouble _ _ (by simp) (by decide) hpeek
    next => exact consumes_error _ _ _
  case h_19 =>
    split
    next hpeek => exact hdouble _ _ (by simp) (by decide) hpeek
    next => exact consumes_error _ _ _
  -- a less-than sign may be followed by one of three
  case h_20 =>
    split
    next hpeek => exact hdouble _ _ (by simp) (by decide) hpeek
    next =>
      split
      next hpeek => exact hdouble _ _ (by simp) (by decide) hpeek
      next =>
        exact consumes_oneOrTwo span (List.cons_ne_nil _ _) hone (by decide) (by simp) (by simp)
  case h_23 => exact consumes_error _ _ _
  all_goals exact hsingle _ (by simp)

/-! ## One token and all of them -/

/-- The lexer read white space and then the characters of the token; the last token has none. -/
structure Reads (l : Lexer) (st : SpannedToken) (l' : Lexer) (gap text : List Char) : Prop where
  whitespace : ∀ c ∈ gap, isAsciiWhitespace c
  advances : Advances l (gap ++ text) l'
  span : st.span = gap.foldl nextSpan l.currentSpan
  ne_nil : st.token ≠ .eof → text ≠ []
  eof : st.token = .eof → text = [] ∧ l'.rest = []

theorem reads_nextToken {l l' : Lexer} {st : SpannedToken} (h : nextToken l = .ok (st, l')) :
    ∃ gap text, Reads l st l' gap text := by
  have hgap : Advances l _ l.skipWhitespace := advances_advanceWhile isAsciiWhitespace l
  -- what a routine consumes behind the white space is the text of the token
  have htoken : ∀ r, Consumes l.skipWhitespace.currentSpan l.skipWhitespace r → r = .ok (st, l') →
      ∃ gap text, Reads l st l' gap text := by
    intro r hr hok
    obtain ⟨hspan, hne, text, htext, hadvances⟩ := hr st l' hok
    refine ⟨_, text, all_advanceWhile _ l, hgap.trans hadvances, ?_, fun _ => htext, ?_⟩
    · rw [hspan, hgap.span]
    · exact fun heof => absurd heof hne
  unfold nextToken at h
  dsimp only at h
  split at h
  next hend =>
    cases h
    refine ⟨_, [], all_advanceWhile _ l, by rw [List.append_nil]; exact hgap, hgap.span, ?_, ?_⟩
    · exact fun hne => absurd rfl hne
    · exact fun _ => ⟨rfl, List.isEmpty_iff.mp hend⟩
  next hend =>
    have hsome : l.skipWhitespace.isEof = false := by simpa using hend
    split at h
    next hdash => exact htoken _ (consumes_lexSingleLineComment _ hdash.2) h
    split at h
    next hslash => exact htoken _ (consumes_lexMultiLineComment _ hslash.2) h
    split at h
    next => exact htoken _ (consumes_lexString _ hsome) h
    split at h
    next hdigit => exact htoken _ (consumes_lexNumber _ hsome hdigit) h
    split at h
    next hword => exact htoken _ (consumes_lexIdentifier _ hsome hword) h
    split at h
    next => exact htoken _ (consumes_lexParameter _ hsome) h
    next => exact htoken _ (consumes_lexOperatorOrDelimiter _ hsome) h

theorem length_nextToken_lt {l l' : Lexer} {st : SpannedToken} (h : nextToken l = .ok (st, l'))
    (heof : st.token ≠ .eof) : l'.rest.length < l.rest.length := by
  obtain ⟨gap, text, hreads⟩ := reads_nextToken h
  exact hreads.advances.length_lt (by simp [hreads.ne_nil heof])

/-- The loop of `tokenize`: the tokens, each with the lexer behind it. -/
def tokenSteps (l : Lexer) : Except LexerError (List (SpannedToken × Lexer)) :=
  match _h : nextToken l with
  | .error e => .error e
  | .ok (st, l') =>
    if _heof : st.token = .eof then .ok [(st, l')]
    else (tokenSteps l').map ((st, l') :: ·)
termination_by l.rest.length
decreasing_by exact length_nextToken_lt _h _heof

def tokenize (l : Lexer) : Except LexerError (List SpannedToken) :=
  (tokenSteps l).map (List.map Prod.fst)

/-- Where each token ends. -/
def tokenEnds (l : Lexer) : Except LexerError (List Nat) :=
  (tokenSteps l).map (List.map fun step => step.2.pos)

theorem tokenSteps_error {l : Lexer} {e : LexerError} (h : nextToken l = .error e) :
    tokenSteps l = .error e := by
  rw [tokenSteps]
  split
  next e' he =>
    rw [h] at he
    cases he
    rfl
  next st l' hok =>
    rw [h] at hok
    cases hok

theorem tokenSteps_eof {l l' : Lexer} {st : SpannedToken} (h : nextToken l = .ok (st, l'))
    (heof : st.token = .eof) : tokenSteps l = .ok [(st, l')] := by
  rw [tokenSteps]
  split
  next e he =>
    rw [h] at he
    cases he
  next st' l'' hok =>
    rw [h] at hok
    cases hok
    rw [dif_pos heof]

theorem tokenSteps_cons {l l' : Lexer} {st : SpannedToken} (h : nextToken l = .ok (st, l'))
    (heof : st.token ≠ .eof) : tokenSteps l = (tokenSteps l').map ((st, l') :: ·) := by
  rw [tokenSteps]
  split
  next e he =>
    rw [h] at he
    cases he
  next st' l'' hok =>
    rw [h] at hok
    cases hok
    rw [dif_neg heof]

end Lexer

end Synaptica.Gql
