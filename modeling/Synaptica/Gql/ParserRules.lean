import Synaptica.Lib.Ending
import Synaptica.Gql.ParserSteps

/-!
# The parser moves forward

A parsing function that ends has moved the parser over tokens none of which is the end of the input, and
has left the nesting depth as it found it (`Forward`); the functions that read something have moved it
(`Progress`). An error stands at a token that can be reached so. The rules for the helpers are stated for
two computations at once, which may differ in the parser of nested statements.
-/

namespace Synaptica.Gql

open Ending

/-! ## Moving forward -/

namespace Parser

/-- The token at a position; behind the last one the input has ended. -/
def tokenAt (tokens : List SpannedToken) (i : Nat) : Token :=
  (tokens[i]?).elim .eof SpannedToken.token

/-- The parser has moved over tokens before the end, and is as deep as before. -/
structure Forward (p q : Parser) : Prop where
  tokens : q.tokens = p.tokens
  depth : q.depth = p.depth
  pos : p.pos ≤ q.pos
  real : ∀ i, p.pos ≤ i → i < q.pos → tokenAt p.tokens i ≠ .eof

structure Progress (p q : Parser) : Prop extends Forward p q where
  moved : p.pos < q.pos

/-- How many tokens are left. -/
def left (p : Parser) : Nat := p.tokens.length - p.pos

variable {p q r : Parser}

theorem Forward.refl (p : Parser) : Forward p p :=
  ⟨rfl, rfl, le_refl _, fun i hp hi => absurd hi (by omega)⟩

theorem Forward.trans (h : Forward p q) (h' : Forward q r) : Forward p r := by
  refine ⟨h'.tokens.trans h.tokens, h'.depth.trans h.depth, le_trans h.pos h'.pos, ?_⟩
  intro i hp hr
  by_cases hq : i < q.pos
  · exact h.real i hp hq
  · rw [← h.tokens]
    exact h'.real i (by omega) hr

theorem Progress.trans_forward (h : Progress p q) (h' : Forward q r) : Progress p r :=
  ⟨h.toForward.trans h', Nat.lt_of_lt_of_le h.moved h'.pos⟩

theorem Forward.trans_progress (h : Forward p q) (h' : Progress q r) : Progress p r :=
  ⟨h.trans h'.toForward, Nat.lt_of_le_of_lt h.pos h'.moved⟩

theorem Progress.trans (h : Progress p q) (h' : Progress q r) : Progress p r :=
  h.trans_forward h'.toForward

theorem Forward.left_le (h : Forward p q) : q.left ≤ p.left := by
  unfold left
  rw [h.tokens]
  have hpos := h.pos
  omega

/-- Fewer tokens are left behind a parser that has read something. -/
theorem Progress.left_lt (h : Progress p q) : q.left < p.left := by
  have hreal := h.real p.pos (le_refl _) h.moved
  have hmoved := h.moved
  have hlt : p.pos < p.tokens.length := by
    by_contra hge
    apply hreal
    rw [tokenAt, List.getElem?_eq_none (by omega)]
    rfl
  unfold left
  rw [h.tokens]
  omega

theorem progress_skip_one (h : p.peek ≠ .eof) : Progress p (p.skip 1) := by
  refine ⟨⟨rfl, rfl, Nat.le_succ _, ?_⟩, Nat.lt_succ_self _⟩
  intro i hp hi
  have hip : i = p.pos := Nat.le_antisymm (Nat.le_of_lt_succ hi) hp
  rwa [hip]

theorem left_deeper : p.deeper.left = p.left := rfl

/-- What moves forward one level deeper moves forward here. -/
theorem Forward.of_deeper (h : Forward p.deeper q) : Forward p { q with depth := q.depth - 1 } := by
  refine ⟨h.tokens, ?_, h.pos, h.real⟩
  rw [h.depth, depth_deeper]
  exact Nat.add_sub_cancel ..

theorem Progress.of_deeper (h : Progress p.deeper q) : Progress p { q with depth := q.depth - 1 } :=
  ⟨h.toForward.of_deeper, h.moved⟩

/-- The parser stands on one of the tokens, at the end of the input or before it. -/
structure On (tokens : List SpannedToken) (p : Parser) : Prop where
  same : p.tokens = tokens
  real : ∀ i < p.pos, tokenAt tokens i ≠ .eof

theorem On.forward {tokens : List SpannedToken} (h : On tokens p) (hpq : Forward p q) :
    On tokens q := by
  refine ⟨hpq.tokens.trans h.same, ?_⟩
  intro i hi
  by_cases hp : i < p.pos
  · exact h.real i hp
  · rw [← h.same]
    exact hpq.real i (by omega) hi

theorem On.deeper {tokens : List SpannedToken} (h : On tokens p) : On tokens p.deeper :=
  ⟨h.same, h.real⟩

end Parser

/-- The error stands at a token that no end of the input comes before. -/
def PointsInto (tokens : List SpannedToken) (e : ParseError) : Prop :=
  ∃ p, Parser.On tokens p ∧ e.line = p.peekSpan.line ∧ e.column = p.peekSpan.column

/-! ## Rules for the helpers -/

section Rules

variable {tokens : List SpannedToken} {debug : Token → String} {α β : Type} {p : Parser}
  {Q : α → Parser → Prop}

/-- Both computations end on `p`, alike, and an error stands in `tokens`. -/
abbrev Ends (tokens : List SpannedToken) (x y : ParseM α) (p : Parser)
    (Q : α → Parser → Prop) : Prop :=
  EndAlike (PointsInto tokens) x y p Q

theorem ends_fail (hp : p.On tokens) (message : String) :
    Ends tokens (parseFail message) (parseFail message) p Q :=
  .of_error (e := p.error message) rfl rfl ⟨p, hp, rfl, rfl⟩

theorem ends_peek {f g : Token → ParseM α} (h : Ends tokens (f p.peek) (g p.peek) p Q) :
    Ends tokens (peekToken >>= f) (peekToken >>= g) p Q := by
  apply EndAlike.bind (Q := fun t q => t = p.peek ∧ q = p)
  · exact .of_value rfl rfl ⟨rfl, rfl⟩
  · rintro t q ⟨rfl, rfl⟩
    exact h

theorem ends_get {f g : Parser → ParseM α} (h : Ends tokens (f p) (g p) p Q) :
    Ends tokens (get >>= f) (get >>= g) p Q := by
  apply EndAlike.bind (Q := fun a q => a = p ∧ q = p)
  · exact .of_value rfl rfl ⟨rfl, rfl⟩
  · rintro a q ⟨rfl, rfl⟩
    exact h

theorem advance_of_peek (h : p.peek ≠ .eof) : advance p = some (.ok ((), p.skip 1)) := by
  have hstep : advance p = some (.ok ((), if p.peek = .eof then p else p.skip 1)) := rfl
  rw [hstep, if_neg h]

/-- Behind a function that reads something. -/
theorem Ends.read {x y : ParseM β} {f g : β → ParseM α}
    (h : Ends tokens x y p fun _ q => p.Progress q) (hp : p.On tokens)
    (hfg : ∀ b q, p.Progress q → q.On tokens → Ends tokens (f b) (g b) q Q) :
    Ends tokens (x >>= f) (y >>= g) p Q :=
  h.bind fun b q hq => hfg b q hq (hp.forward hq.toForward)

/-- Behind a function that may read something. -/
theorem Ends.pass {x y : ParseM β} {f g : β → ParseM α}
    (h : Ends tokens x y p fun _ q => p.Forward q) (hp : p.On tokens)
    (hfg : ∀ b q, p.Forward q → q.On tokens → Ends tokens (f b) (g b) q Q) :
    Ends tokens (x >>= f) (y >>= g) p Q :=
  h.bind fun b q hq => hfg b q hq (hp.forward hq)

theorem ends_advance {f g : Unit → ParseM α} (hp : p.On tokens) (hpeek : p.peek ≠ .eof)
    (h : ∀ q, p.Progress q → q.On tokens → Ends tokens (f ()) (g ()) q Q) :
    Ends tokens (advance >>= f) (advance >>= g) p Q := by
  have hstep : Ends tokens advance advance p fun _ q => p.Progress q :=
    .of_value (advance_of_peek hpeek) (advance_of_peek hpeek) (Parser.progress_skip_one hpeek)
  exact Ends.read hstep hp fun _ => h

theorem ends_match {t : Token} {f g : Bool → ParseM α} (hp : p.On tokens) (ht : t ≠ .eof)
    (hyes : ∀ q, p.Progress q → q.On tokens → Ends tokens (f true) (g true) q Q)
    (hno : p.peek ≠ t → Ends tokens (f false) (g false) p Q) :
    Ends tokens (matchToken t >>= f) (matchToken t >>= g) p Q := by
  have hstep : matchToken t p = (if p.peek = t then (do advance; return true) else pure false) p := rfl
  by_cases hpeek : p.peek = t
  · have heof : p.peek ≠ .eof := by rwa [hpeek]
    have hrun : matchToken t p = some (.ok (true, p.skip 1)) := by
      rw [hstep, if_pos hpeek, bind_of _ (advance_of_peek heof)]
      rfl
    apply EndAlike.bind (Q := fun b q => b = true ∧ p.Progress q)
    · exact .of_value hrun hrun ⟨rfl, Parser.progress_skip_one heof⟩
    · rintro b q ⟨rfl, hq⟩
      exact hyes q hq (hp.forward hq.toForward)
  · have hrun : matchToken t p = some (.ok (false, p)) := by
      rw [hstep, if_neg hpeek]
      rfl
    apply EndAlike.bind (Q := fun b q => b = false ∧ q = p)
    · exact .of_value hrun hrun ⟨rfl, rfl⟩
    · rintro b q ⟨rfl, rfl⟩
      exact hno hpeek

theorem ends_expect {t : Token} {f g : Unit → ParseM α} (hp : p.On tokens) (ht : t ≠ .eof)
    (h : ∀ q, p.Progress q → q.On tokens → Ends tokens (f ()) (g ()) q Q) :
    Ends tokens (expect debug t >>= f) (expect debug t >>= g) p Q := by
  have hstep : Ends tokens (expect debug t) (expect debug t) p fun _ q => p.Progress q := by
    apply ends_peek
    split
    · have heof : p.peek ≠ .eof := by rwa [‹p.peek = t›]
      exact .of_value (advance_of_peek heof) (advance_of_peek heof) (Parser.progress_skip_one heof)
    · exact ends_fail hp _
  exact Ends.read hstep hp fun _ => h

theorem ends_ident (hp : p.On tokens) :
    Ends tokens (expectIdent debug) (expectIdent debug) p (fun _ q => p.Progress q) := by
  apply ends_peek
  split
  · have heof : p.peek ≠ .eof := by
      rw [‹p.peek = _›]
      simp
    apply ends_advance hp heof
    intro q hq _
    exact .pure hq
  · exact ends_fail hp _

theorem propertyKeywords_ne_eof {t : Token} {name : String}
    (h : propertyKeywords.lookup t = some name) : t ≠ .eof := by
  rintro rfl
  cases h

theorem ends_identOrKeyword (hp : p.On tokens) :
    Ends tokens (expectIdentOrKeyword debug) (expectIdentOrKeyword debug) p
      (fun _ q => p.Progress q) := by
  apply ends_peek
  split
  · have heof : p.peek ≠ .eof := by
      rw [‹p.peek = _›]
      simp
    apply ends_advance hp heof
    intro q hq _
    exact .pure hq
  · split
    · apply ends_advance hp (propertyKeywords_ne_eof ‹_›)
      intro q hq _
      exact .pure hq
    · exact ends_fail hp _

theorem ends_enter {f g : Unit → ParseM α} (hp : p.On tokens)
    (h : Ends tokens (f ()) (g ()) p.deeper Q) :
    Ends tokens (enterDepth >>= f) (enterDepth >>= g) p Q := by
  apply EndAlike.bind (Q := fun _ q => q = p.deeper)
  · have hstep : enterDepth p = (if p.deeper.depth > maxExprDepth
        then parseFail "expression nesting depth exceeded" else pure ()) p.deeper := rfl
    by_cases hdepth : p.deeper.depth > maxExprDepth
    · have hrun : enterDepth p = some (.error (p.error "expression nesting depth exceeded")) := by
        rw [hstep, if_pos hdepth]
        rfl
      exact .of_error hrun hrun ⟨p, hp, rfl, rfl⟩
    · have hrun : enterDepth p = some (.ok ((), p.deeper)) := by
        rw [hstep, if_neg hdepth]
        rfl
      exact .of_value hrun hrun rfl
  · rintro _ q rfl
    exact h

theorem ends_exit {f g : Unit → ParseM α} {q : Parser} (hpq : p.deeper.Progress q)
    (h : ∀ r, p.Progress r → Ends tokens (f ()) (g ()) r Q) :
    Ends tokens (exitDepth >>= f) (exitDepth >>= g) q Q := by
  have hstep : Ends tokens exitDepth exitDepth q fun _ r => p.Progress r :=
    .of_value rfl rfl hpq.of_deeper
  exact hstep.bind fun _ => h

end Rules

end Synaptica.Gql
