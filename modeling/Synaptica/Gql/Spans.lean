import Synaptica.Gql.StringLiterals
import Synaptica.Lib.TextPosition

/-!
# Spans

What the spans of the tokens say about the input. The lexer that began at the first line and column
is, at every token, where the text in front of the token ends; the claims about a list of tokens then
go along the loop of `tokenize`, from the place where a token ends.
-/

namespace Synaptica.Gql

open TextPosition

/-! ## Positions -/

/-- The position behind the text: its line, its column and its length. -/
def spanOf (text : List Char) : Span := ⟨line text, column text, text.length⟩

theorem nextSpan_spanOf (text : List Char) (c : Char) :
    Lexer.nextSpan (spanOf text) c = spanOf (text ++ [c]) := by
  by_cases hc : c = '\n'
  · subst hc
    simp [Lexer.nextSpan, spanOf, line_newline, column_newline]
  · simp [Lexer.nextSpan, spanOf, hc, line_other text hc, column_other text hc]

theorem foldl_nextSpan (text before : List Char) :
    text.foldl Lexer.nextSpan (spanOf before) = spanOf (before ++ text) := by
  induction text generalizing before with
  | nil => rw [List.foldl_nil, List.append_nil]
  | cons c text ih => rw [List.foldl_cons, nextSpan_spanOf, ih, List.append_assoc]; rfl

/-- The tokens and their ends, as they stand in the input from `start` on. -/
structure Faithful (input : List Char) (start : Nat) (tokens : List SpannedToken)
    (ends : List Nat) : Prop where
  length : ends.length = tokens.length
  /-- The offsets increase, and none is in front of the start. -/
  increasing : (tokens.map fun st => st.span.offset).Pairwise (· < ·)
  start_le : ∀ st ∈ tokens, start ≤ st.span.offset
  /-- Every token but the last one has characters. -/
  consumes : ∀ p ∈ tokens.zip ends, p.1.token ≠ .eof → p.1.span.offset < p.2
  /-- From the end of one token, or from the start, to the next token there is white space only. -/
  gaps : ∀ p ∈ (start :: ends).zip tokens, p.1 ≤ p.2.span.offset ∧
    ∀ c ∈ input.extract p.1 p.2.span.offset, isAsciiWhitespace c
  /-- The last token is the only end of the input, and stands there. -/
  eof : ∃ before last, tokens = before ++ [last] ∧ last.token = .eof ∧
    last.span.offset = input.length ∧ ∀ st ∈ before, st.token ≠ .eof
  /-- Line and column are those of the text in front of the token. -/
  positions : ∀ st ∈ tokens, st.span = spanOf (input.take st.span.offset)

namespace Lexer

/-! ## Along the loop -/

/-- The lexer stands behind the text, in the input. -/
structure Stands (input before : List Char) (l : Lexer) : Prop where
  rest : input = before ++ l.rest
  span : l.currentSpan = spanOf before

theorem Stands.new (input : String) : Stands input.toList [] (new input) := ⟨rfl, rfl⟩

theorem Stands.pos {input before : List Char} {l : Lexer} (h : Stands input before l) :
    l.pos = before.length := congrArg Span.offset h.span

theorem Stands.advances {input before text : List Char} {l l' : Lexer} (h : Stands input before l)
    (hl : Advances l text l') : Stands input (before ++ text) l' where
  rest := by rw [h.rest, hl.rest, List.append_assoc]
  span := by rw [hl.span, h.span, foldl_nextSpan]

/-- What one token says about the input: where it stands, what is in front of it, and how far it
goes. -/
theorem Stands.reads {input before gap text : List Char} {l l' : Lexer} {st : SpannedToken}
    (h : Stands input before l) (hreads : Reads l st l' gap text) :
    st.span = spanOf (before ++ gap) ∧ input = before ++ gap ++ text ++ l'.rest ∧
      l'.pos = st.span.offset + text.length := by
  have hspan : st.span = spanOf (before ++ gap) := by rw [hreads.span, h.span, foldl_nextSpan]
  have hafter := h.advances hreads.advances
  refine ⟨hspan, ?_, ?_⟩
  · rw [hafter.rest]
    simp only [List.append_assoc]
  · rw [hafter.pos, hspan]
    simp [spanOf, Nat.add_assoc]

/-- A token that stands in the input has the line and the column of the text in front of it. -/
theorem Stands.position {input before gap text : List Char} {l l' : Lexer} {st : SpannedToken}
    (h : Stands input before l) (hreads : Reads l st l' gap text) :
    st.span = spanOf (input.take st.span.offset) := by
  obtain ⟨hspan, hinput, -⟩ := h.reads hreads
  have htake : input.take st.span.offset = before ++ gap := by
    rw [hspan, hinput, List.append_assoc _ text]
    exact List.take_left
  rw [htake, hspan]

/-- In front of a token there is its gap. -/
theorem Stands.gap {input before gap text : List Char} {l l' : Lexer} {st : SpannedToken}
    (h : Stands input before l) (hreads : Reads l st l' gap text) :
    l.pos ≤ st.span.offset ∧ ∀ c ∈ input.extract l.pos st.span.offset, isAsciiWhitespace c := by
  obtain ⟨hspan, hinput, -⟩ := h.reads hreads
  have hoffset : st.span.offset = before.length + gap.length := by
    rw [hspan]
    simp [spanOf]
  have hextract : input.extract l.pos st.span.offset = gap := by
    rw [h.pos, hoffset, hinput]
    simp [List.extract_eq_take_drop]
  rw [hextract, h.pos, hoffset]
  exact ⟨Nat.le_add_right _ _, hreads.whitespace⟩

/-- The last token alone. -/
theorem Stands.faithful_eof {input before gap text : List Char} {l l' : Lexer} {st : SpannedToken}
    (h : Stands input before l) (hreads : Reads l st l' gap text) (heof : st.token = .eof) :
    Faithful input l.pos [st] [l'.pos] := by
  obtain ⟨htext, hrest⟩ := hreads.eof heof
  obtain ⟨hspan, hinput, -⟩ := h.reads hreads
  have hend : st.span.offset = input.length := by
    rw [hspan, hinput, htext, hrest]
    simp [spanOf]
  refine ⟨rfl, List.pairwise_singleton _ _, ?_, ?_, ?_, ⟨[], st, rfl, heof, hend, ?_⟩, ?_⟩
  · intro st' hst'
    rw [List.mem_singleton.mp hst']
    exact (h.gap hreads).1
  · intro p hp hne
    rw [List.mem_singleton.mp hp] at hne
    exact absurd heof hne
  · intro p hp
    rw [List.mem_singleton.mp hp]
    exact h.gap hreads
  · exact fun st' hst' => absurd hst' List.not_mem_nil
  · intro st' hst'
    rw [List.mem_singleton.mp hst']
    exact h.position hreads

/-- A token in front of the tokens that begin where it ends. -/
theorem Stands.faithful_cons {input before gap text : List Char} {l l' : Lexer} {st : SpannedToken}
    {tokens : List SpannedToken} {ends : List Nat} (h : Stands input before l)
    (hreads : Reads l st l' gap text) (heof : st.token ≠ .eof)
    (hlater : Faithful input l'.pos tokens ends) :
    Faithful input l.pos (st :: tokens) (l'.pos :: ends) := by
  have hstart := (h.gap hreads).1
  have hlt : st.span.offset < l'.pos := by
    rw [(h.reads hreads).2.2]
    have hpos := List.length_pos_iff.mpr (hreads.ne_nil heof)
    omega
  obtain ⟨init, last, htokens, hlast, hend, hinit⟩ := hlater.eof
  refine ⟨?_, ?_, ?_, ?_, ?_, ⟨st :: init, last, ?_, hlast, hend, ?_⟩, ?_⟩
  · rw [List.length_cons, hlater.length, List.length_cons]
  · rw [List.map_cons, List.pairwise_cons]
    refine ⟨fun offset hoffset => ?_, hlater.increasing⟩
    obtain ⟨st', hst', rfl⟩ := List.mem_map.mp hoffset
    exact hlt.trans_le (hlater.start_le st' hst')
  · intro st' hst'
    rcases List.mem_cons.mp hst' with rfl | hst'
    · exact hstart
    · exact (hstart.trans hlt.le).trans (hlater.start_le st' hst')
  · intro p hp hne
    rcases List.mem_cons.mp hp with rfl | hp
    · exact hlt
    · exact hlater.consumes p hp hne
  · intro p hp
    rcases List.mem_cons.mp hp with rfl | hp
    · exact h.gap hreads
    · exact hlater.gaps p hp
  · rw [htokens, List.cons_append]
  · intro st' hst'
    rcases List.mem_cons.mp hst' with rfl | hst'
    · exact heof
    · exact hinit st' hst'
  · intro st' hst'
    rcases List.mem_cons.mp hst' with rfl | hst'
    · exact h.position hreads
    · exact hlater.positions st' hst'

/-- Along the whole loop. The induction is on the loop itself; what carries it is that the lexer
stands in the input behind every token. -/
theorem faithful_tokenSteps (input : List Char) (l : Lexer) :
    ∀ before steps, Stands input before l → tokenSteps l = .ok steps →
      Faithful input l.pos (steps.map Prod.fst) (steps.map fun step => step.2.pos) := by
  induction l using tokenSteps.induct with
  | case1 l e he =>
    intro before steps h hsteps
    rw [tokenSteps_error he] at hsteps
    cases hsteps
  | case2 l st l' hnext heof =>
    intro before steps h hsteps
    rw [tokenSteps_eof hnext heof] at hsteps
    cases hsteps
    obtain ⟨gap, text, hreads⟩ := reads_nextToken hnext
    exact h.faithful_eof hreads heof
  | case3 l st l' hnext heof ih =>
    intro before steps h hsteps
    rw [tokenSteps_cons hnext heof] at hsteps
    obtain ⟨later, hlater, rfl⟩ := Except.map_eq_ok.mp hsteps
    obtain ⟨gap, text, hreads⟩ := reads_nextToken hnext
    exact h.faithful_cons hreads heof (ih _ later (h.advances hreads.advances) hlater)

/-- Where `tokenize` succeeds, its tokens are faithful to the input. -/
theorem tokenize_faithful {input : String} {tokens : List SpannedToken}
    (h : tokenize (new input) = .ok tokens) :
    ∃ ends, tokenEnds (new input) = .ok ends ∧ Faithful input.toList 0 tokens ends := by
  obtain ⟨steps, hsteps, rfl⟩ := Except.map_eq_ok.mp h
  refine ⟨_, ?_, faithful_tokenSteps _ _ [] steps (.new input) hsteps⟩
  rw [tokenEnds, hsteps]
  rfl

/-- A literal with a quote in it is an input on which `tokenize` succeeds. -/
theorem tokenize_faithful_literal :
    ∃ tokens, tokenize (new (stringLiteral "it's")) = .ok tokens ∧
      ∃ ends, tokenEnds (new (stringLiteral "it's")) = .ok ends ∧
        Faithful (stringLiteral "it's").toList 0 tokens ends := by
  obtain ⟨l, hsteps⟩ := tokenSteps_stringLiteral "it's"
  have htokens : tokenize (new (stringLiteral "it's")) =
      .ok [⟨.stringLit "it's", ⟨1, 1, 0⟩⟩, ⟨.eof, l.currentSpan⟩] := by
    rw [tokenize, hsteps]
    rfl
  exact ⟨_, htokens, tokenize_faithful htokens⟩

end Lexer

end Synaptica.Gql
