import Synaptica.Gql.Precedence

/-!
# The parser reads back what is printed

`parseExpression_tokens`: on the tokens of an expression, and behind them a token that no expression
goes on with, the parser answers that expression and stops at the seam. An operand is read in its place
whether it is enclosed or not, so that the cases of the induction only follow the tokens.
-/

namespace Synaptica.Gql

/-! ## How an expression begins -/

/-- The tokens that close a construct, or that are looked for where an expression may stand. -/
def closers : List Token := [.rParen, .rBracket, .rBrace, .when, .star, .distinct, .eof]

/-- The tokens begin with one that begins an expression of the level. -/
def Begins (level : Nat) (ts : List Token) : Prop :=
  ∃ t us, ts = t :: us ∧ t ∉ closers ∧ Passes level t

theorem Begins.mono {level level' : Nat} {ts : List Token} (h : Begins level' ts)
    (hle : level ≤ level') : Begins level ts := by
  obtain ⟨t, us, hts, ht, hpass⟩ := h
  exact ⟨t, us, hts, ht, hpass.mono hle⟩

theorem Begins.append {level : Nat} {ts : List Token} (h : Begins level ts) (us : List Token) :
    Begins level (ts ++ us) := by
  obtain ⟨t, vs, rfl, ht, hpass⟩ := h
  exact ⟨t, vs ++ us, rfl, ht, hpass⟩

theorem begins_cons {level : Nat} {t : Token} (us : List Token) (ht : t ∉ closers)
    (hpass : Passes level t) : Begins level (t :: us) :=
  ⟨t, us, rfl, ht, hpass⟩

theorem Begins.enclose {level level' : Nat} {parens : Bool} {ts : List Token} (h : Begins level' ts)
    (hle : parens = false → level ≤ level') : Begins level (enclose parens ts) := by
  cases parens with
  | false => exact h.mono (hle rfl)
  | true => exact begins_cons _ (by decide) ⟨by simp, by simp⟩

theorem Begins.peek_ne {level : Nat} {ts rest : List Token} {p : Parser} {t : Token}
    (h : Begins level ts) (hp : p.ahead = ts ++ rest) (ht : t ∈ closers) : p.peek ≠ t := by
  obtain ⟨u, us, rfl, hu, -⟩ := h
  rw [Parser.peek_of_ahead hp]
  rintro rfl
  exact hu ht

theorem Begins.passes {level : Nat} {ts rest : List Token} {p : Parser} (h : Begins level ts)
    (hp : p.ahead = ts ++ rest) : Passes level p.peek := by
  obtain ⟨t, us, rfl, -, hpass⟩ := h
  rwa [Parser.peek_of_ahead hp]

/-! ## Reading on a level -/

section Reads

variable (debug : Token → String) (statement : ParseM GqlStatement)

/-- On the tokens `ts` the level reads `e` and goes on with it, if no more than `n` levels of nesting
are left to it. -/
def Reads (level : Nat) (ts : List Token) (n : Nat) (e : Expression) (had : Bool) : Prop :=
  ∀ (p : Parser) (rest : List Token), p.ahead = ts ++ rest → Stops (level + 1) rest →
    p.depth + n ≤ maxExprDepth →
      parserAt debug statement level p = goOn debug statement level e had (p.skip ts.length)

/-- The parser reads the tokens of an expression on its own level. -/
structure RoundTrips (e : Expression) : Prop where
  begins : Begins e.level e.tokens
  reads : Reads debug statement e.level e.tokens e.nest e e.chained

variable {debug statement} {e : Expression} {level n : Nat} {ts rest : List Token} {had : Bool}

/-- Where nothing goes on behind them, the tokens are read to the end. -/
theorem Reads.value {p : Parser} (h : Reads debug statement level ts n e had)
    (hp : p.ahead = ts ++ rest) (hstop : Stops level rest) (hdepth : p.depth + n ≤ maxExprDepth) :
    parserAt debug statement level p = some (.ok (e, p.skip ts.length)) := by
  rw [h p rest hp (hstop.mono (Nat.le_succ _)) hdepth]
  apply goOn_stops
  rwa [Parser.ahead_skip hp]

theorem Reads.had_irrelevant (h : Reads debug statement level ts n e had) (hlevel : level ≠ 4)
    (had' : Bool) : Reads debug statement level ts n e had' := by
  intro p rest hp hstop hdepth
  rw [h p rest hp hstop hdepth, goOn_had hlevel]

theorem RoundTrips.reads_of_le (h : RoundTrips debug statement e) (hle : level ≤ e.level) :
    Reads debug statement level e.tokens e.nest e e.chained := by
  rcases Nat.eq_or_lt_of_le hle with rfl | hlt
  · exact h.reads
  · intro p rest hp hstop hdepth
    have hread : parserAt debug statement e.level p = some (.ok (e, p.skip e.tokens.length)) :=
      h.reads.value hp (hstop.mono hlt) hdepth
    have hgo := parserAt_of_lt hlt e.level_le (h.begins.passes hp)
      (by rwa [Parser.ahead_skip hp]) hread
    rw [hgo]
    -- a comparison stands on its own level, so that `had` tells nothing here
    by_cases hlevel : level = 4
    · rw [Expression.chained_of_level_ne (by omega)]
    · exact congrFun (goOn_had hlevel ..) _

/-- A whole expression, up to a token that ends it. -/
theorem RoundTrips.value {p : Parser} (h : RoundTrips debug statement e)
    (hp : p.ahead = e.tokens ++ rest) (hstop : Stops 0 rest)
    (hdepth : p.depth + e.nest ≤ maxExprDepth) :
    parseChain debug statement .or p = some (.ok (e, p.skip e.tokens.length)) :=
  (h.reads_of_le (Nat.zero_le _)).value hp hstop hdepth

/-- In parentheses an expression is read on every level. -/
theorem RoundTrips.reads_parens (h : RoundTrips debug statement e) (hlevel : level ≤ 10) :
    Reads debug statement level (enclose true e.tokens) (e.nest + 1) e false := by
  intro p rest hp hstop hdepth
  have hp' : p.ahead = .lParen :: (e.tokens ++ .rParen :: rest) := by
    rw [hp, enclose, if_pos rfl]
    simp only [List.cons_append, List.append_assoc]
    rfl
  have hprimary : parsePrimary debug statement p
      = some (.ok (e, p.skip (enclose true e.tokens).length)) := by
    have hin : (p.deeper.skip 1).ahead = e.tokens ++ .rParen :: rest := by
      rw [Parser.ahead_deeper_skip]
      exact Parser.ahead_skip_one hp'
    have hout : ((p.deeper.skip 1).skip e.tokens.length).ahead = .rParen :: rest :=
      Parser.ahead_skip hin
    have hread := h.value hin (stops_of_ends rfl 0) (by
      simp only [Parser.depth_skip, Parser.depth_deeper]
      omega)
    rw [parsePrimary, peekToken_bind _ hp']
    show (enterDepth >>= _) p = _
    rw [enterDepth_bind _ (by omega), advance_bind _ (Parser.ahead_deeper.trans hp') (by simp),
      bind_of _ hread, expect_bind _ _ hout (by simp), Parser.skip_skip, Parser.skip_skip,
      exitDepth_bind]
    apply pure_skip
    simp only [enclose, if_true, List.length_cons, List.length_append, List.length_nil]
    omega
  rcases Nat.eq_or_lt_of_le hlevel with rfl | hlt
  · exact hprimary
  · apply parserAt_of_lt hlt (le_refl 10) _ _ hprimary
    · rw [Parser.peek_of_ahead hp']
      exact ⟨by simp, by simp⟩
    · rwa [Parser.ahead_skip hp]

/-- An operand is read in its place. -/
theorem RoundTrips.reads_operand (h : RoundTrips debug statement e) (hlevel : level ≤ 10) :
    Reads debug statement level (enclose (e.parensAt level) e.tokens)
      (e.nest + (e.parensAt level).toNat) e e.chained := by
  cases hparens : e.parensAt level with
  | false =>
    have hle : level ≤ e.level := by simpa [Expression.parensAt] using hparens
    exact h.reads_of_le hle
  | true =>
    have hlt : e.level < level := by simpa [Expression.parensAt] using hparens
    by_cases hfour : level = 4
    · rw [Expression.chained_of_level_ne (by omega)]
      exact h.reads_parens hlevel
    · exact (h.reads_parens hlevel).had_irrelevant hfour _

/-- The left operand of an operator is read in its place, and a comparison may follow it. -/
theorem RoundTrips.reads_left (h : RoundTrips debug statement e) (op : BinaryOp) :
    Reads debug statement op.level (enclose (e.parensLeft op) e.tokens)
      (e.nest + (e.parensLeft op).toNat) e false := by
  have hlevel : op.level ≤ 10 := by cases op <;> simp [BinaryOp.level]
  cases hparens : e.parensLeft op with
  | true => exact h.reads_parens hlevel
  | false =>
    have hleft : op.level ≤ e.level ∧ (op.level = 4 → e.chained = false) := by
      simpa [Expression.parensLeft] using hparens
    by_cases hfour : op.level = 4
    · have hread := h.reads_of_le hleft.1
      rwa [hleft.2 hfour] at hread
    · exact (h.reads_of_le hleft.1).had_irrelevant hfour _

theorem RoundTrips.begins_operand (h : RoundTrips debug statement e) (level : Nat) :
    Begins level (enclose (e.parensAt level) e.tokens) := by
  apply h.begins.enclose
  intro hparens
  simpa [Expression.parensAt] using hparens

theorem RoundTrips.begins_left (h : RoundTrips debug statement e) (op : BinaryOp) :
    Begins op.level (enclose (e.parensLeft op) e.tokens) := by
  apply h.begins.enclose
  intro hparens
  have hleft : op.level ≤ e.level ∧ (op.level = 4 → e.chained = false) := by
    simpa [Expression.parensLeft] using hparens
  exact hleft.1

/-! ## Operators -/

theorem RoundTrips.binaryOp {left right : Expression} (op : BinaryOp)
    (hl : RoundTrips debug statement left) (hr : RoundTrips debug statement right) :
    RoundTrips debug statement (.binaryOp left op right) := by
  constructor
  · exact (hl.begins_left op).append _
  · intro p rest hp hstop hdepth
    simp only [Expression.tokens, List.append_assoc, List.cons_append] at hp
    simp only [Expression.nest] at hdepth
    have hlevel : op.level + 1 ≤ 10 := by cases op <;> simp [BinaryOp.level]
    have hmid := Parser.ahead_skip hp
    have hright := Parser.ahead_skip_one hmid
    have hoperand := (hr.reads_operand hlevel).value hright hstop (by
      simp only [Parser.depth_skip]
      omega)
    have hlen : (enclose (left.parensLeft op) left.tokens).length
        + (1 + (enclose (right.parensAt (op.level + 1)) right.tokens).length)
          = (Expression.binaryOp left op right).tokens.length := by
      simp only [Expression.tokens, List.length_append, List.length_cons]
      omega
    show parserAt debug statement op.level p = goOn debug statement op.level _ _ _
    rw [hl.reads_left op p _ hp (stops_cons op.binding_token (Nat.lt_succ_self _)) (by omega)]
    by_cases hfour : op.level = 4
    · -- a comparison
      have hchained : (Expression.binaryOp left op right).chained = true := by
        rw [Expression.chained, hfour]
        rfl
      have hconcat : parserAt debug statement (op.level + 1) = parseChain debug statement .concat := by
        rw [hfour]
        rfl
      have hgo : goOn debug statement op.level = comparisonLoop debug statement := by
        rw [hfour]
        rfl
      rw [hconcat] at hoperand
      rw [hgo, comparisonLoop, peekToken_bind _ hmid, comparisonOp_token hfour]
      show (advance >>= _) _ = _
      rw [advance_bind _ hmid op.token_ne_eof, bind_of _ hoperand, hchained, Parser.skip_skip,
        Parser.skip_skip, hlen]
    · obtain ⟨chain, hchain⟩ := BinaryOp.exists_chain hfour
      rw [hchain, goOn_chain, goOn_chain, chainLoop, peekToken_bind _ hmid,
        ChainLevel.op_token hchain]
      simp only
      rw [advance_bind _ hmid op.token_ne_eof, parseOperand_eq, ← hchain, bind_of _ hoperand]
      rw [Parser.skip_skip, Parser.skip_skip, hlen]

theorem RoundTrips.unaryOp {operand : Expression} (op : UnaryOp)
    (h : RoundTrips debug statement operand) :
    RoundTrips debug statement (.unaryOp op operand) := by
  constructor
  · apply begins_cons
    · cases op <;> decide
    · cases op <;> simp [Passes, UnaryOp.token, Expression.level, UnaryOp.level]
  · intro p rest hp hstop hdepth
    simp only [Expression.tokens, List.cons_append] at hp
    simp only [Expression.nest] at hdepth
    have hlevel : op.level ≤ 10 := by cases op <;> simp [UnaryOp.level]
    have hin : (p.deeper.skip 1).ahead = _ := Parser.ahead_skip_one (p := p) hp
    have hgo : ∀ q, goOn debug statement op.level operand operand.chained q
        = some (.ok (operand, q)) := by
      intro q
      cases op <;> rfl
    have hoperand := h.reads_operand hlevel _ rest hin hstop (by
      simp only [Parser.depth_skip, Parser.depth_deeper]
      omega)
    rw [hgo, Parser.skip_skip] at hoperand
    have hdeep : (p.skip 1).depth < maxExprDepth := by
      rw [Parser.depth_skip]
      omega
    cases op with
    | not =>
      have hread : parseNotExpr debug statement (p.deeper.skip 1) = _ := hoperand
      show parseNotExpr debug statement p = _
      rw [parseNotExpr, peekToken_bind _ hp]
      show (advance >>= _) p = _
      rw [advance_bind _ hp (by simp [UnaryOp.token]), enterDepth_bind _ hdeep]
      show (parseNotExpr debug statement >>= _) (p.deeper.skip 1) = _
      rw [bind_of _ hread, exitDepth_bind]
      apply pure_skip
      simp only [Expression.tokens, List.length_cons]
      omega
    | neg | pos =>
      have hread : parseUnaryExpr debug statement (p.deeper.skip 1) = _ := hoperand
      show parseUnaryExpr debug statement p = _
      rw [parseUnaryExpr, peekToken_bind _ hp]
      show (advance >>= _) p = _
      rw [advance_bind _ hp (by simp [UnaryOp.token]), enterDepth_bind _ hdeep]
      show (parseUnaryExpr debug statement >>= _) (p.deeper.skip 1) = _
      rw [bind_of _ hread, exitDepth_bind]
      apply pure_skip
      simp only [Expression.tokens, List.length_cons]
      omega

theorem propertyToken_ident (property : String) : propertyToken property = .ident property ∨
    (∀ name, propertyToken property ≠ .ident name) ∧
      propertyKeywords.lookup (propertyToken property) = some property := by
  have hlookup : ∀ k ∈ propertyKeywords, propertyKeywords.lookup k.1 = some k.2 := by decide
  have hident : ∀ k ∈ propertyKeywords, ∀ name, k.1 ≠ .ident name := by
    simp [propertyKeywords]
  unfold propertyToken
  cases h : propertyKeywords.find? fun k => k.2 = property with
  | none => exact .inl rfl
  | some k =>
    have hname : k.2 = property := by simpa using List.find?_some h
    rw [← hname]
    exact .inr ⟨hident k (List.mem_of_find?_eq_some h), hlookup k (List.mem_of_find?_eq_some h)⟩

theorem propertyToken_ne_eof (property : String) : propertyToken property ≠ .eof := by
  intro h
  rcases propertyToken_ident property with hident | ⟨-, hlookup⟩
  · rw [hident] at h
    cases h
  · rw [h] at hlookup
    cases hlookup

theorem expectIdentOrKeyword_bind {β : Type} (f : String → ParseM β) {p : Parser} {property : String}
    (h : p.ahead = propertyToken property :: rest) :
    (expectIdentOrKeyword debug >>= f) p = f property (p.skip 1) := by
  apply bind_of
  have hadvance : advance p = some (.ok ((), p.skip 1)) := by
    have hstep := advance_bind pure h (propertyToken_ne_eof property)
    rwa [bind_pure] at hstep
  rw [expectIdentOrKeyword, peekToken_bind _ h]
  rcases propertyToken_ident property with hident | ⟨hident, hlookup⟩
  · rw [hident]
    exact bind_of _ hadvance
  · generalize propertyToken property = t at hident hlookup
    have hkeyword : propertyKeywords.lookup t = some property := hlookup
    cases t with
    | ident name => exact absurd rfl (hident name)
    | _ =>
      simp only [hkeyword]
      exact bind_of _ hadvance

theorem RoundTrips.propertyAccess {object : Expression} (property : String)
    (h : RoundTrips debug statement object) :
    RoundTrips debug statement (.propertyAccess object property) := by
  constructor
  · exact (h.begins_operand 9).append _
  · intro p rest hp hstop hdepth
    simp only [Expression.tokens, List.append_assoc, List.cons_append, List.nil_append] at hp
    have hdot := Parser.ahead_skip hp
    have hprop := Parser.ahead_skip_one hdot
    have hlen : (enclose (object.parensAt 9) object.tokens).length + (1 + 1)
        = (Expression.propertyAccess object property).tokens.length := by
      simp [Expression.tokens]
    have hobject := h.reads_operand (show 9 ≤ 10 by omega) p _ hp
      (stops_cons (l := 9) rfl (by omega)) hdepth
    show parserAt debug statement 9 p = postfixLoop debug statement _ _
    rw [hobject]
    show postfixLoop debug statement object _ = _
    rw [postfixLoop, peekToken_bind _ hdot, if_pos rfl, advance_bind _ hdot (by simp),
      expectIdentOrKeyword_bind _ hprop, Parser.skip_skip, Parser.skip_skip, hlen]

/-! ## Tests -/

theorem RoundTrips.isNull {inner : Expression} (h : RoundTrips debug statement inner) :
    RoundTrips debug statement (.isNull inner) := by
  constructor
  · exact (h.begins_operand 4).append _
  · intro p rest hp hstop hdepth
    simp only [Expression.tokens, List.append_assoc, List.cons_append, List.nil_append] at hp
    have his := Parser.ahead_skip hp
    have hnull := Parser.ahead_skip_one his
    have hlen : (enclose (inner.parensAt 4) inner.tokens).length + (1 + 1)
        = (Expression.isNull inner).tokens.length := by
      simp [Expression.tokens]
    have hnot : ((p.skip (enclose (inner.parensAt 4) inner.tokens).length).skip 1).peek ≠ .not := by
      rw [Parser.peek_of_ahead hnull]
      simp
    have hinner := h.reads_operand (show 4 ≤ 10 by omega) p _ hp
      (stops_cons (l := 4) rfl (by omega)) hdepth
    show parserAt debug statement 4 p = comparisonLoop debug statement _ inner.chained _
    rw [hinner]
    show comparisonLoop debug statement inner inner.chained _ = _
    rw [comparisonLoop, peekToken_bind _ his]
    show (advance >>= _) _ = _
    rw [advance_bind _ his (by simp), matchToken_bind_of_ne _ hnot, if_neg (by simp),
      expect_bind _ _ hnull (by simp), Parser.skip_skip, Parser.skip_skip, hlen]

theorem RoundTrips.isNotNull {inner : Expression} (h : RoundTrips debug statement inner) :
    RoundTrips debug statement (.isNotNull inner) := by
  constructor
  · exact (h.begins_operand 4).append _
  · intro p rest hp hstop hdepth
    simp only [Expression.tokens, List.append_assoc, List.cons_append, List.nil_append] at hp
    have his := Parser.ahead_skip hp
    have hnot := Parser.ahead_skip_one his
    have hnull := Parser.ahead_skip_one hnot
    have hlen : (enclose (inner.parensAt 4) inner.tokens).length + (1 + (1 + 1))
        = (Expression.isNotNull inner).tokens.length := by
      simp [Expression.tokens]
    have hinner := h.reads_operand (show 4 ≤ 10 by omega) p _ hp
      (stops_cons (l := 4) rfl (by omega)) hdepth
    show parserAt debug statement 4 p = comparisonLoop debug statement _ inner.chained _
    rw [hinner]
    show comparisonLoop debug statement inner inner.chained _ = _
    rw [comparisonLoop, peekToken_bind _ his]
    show (advance >>= _) _ = _
    rw [advance_bind _ his (by simp), matchToken_bind _ hnot (by simp), if_pos rfl,
      expect_bind _ _ hnull (by simp), Parser.skip_skip, Parser.skip_skip, Parser.skip_skip, hlen]

/-- `IN` and `LIKE`: the loop reads its right operand and goes on with `make` of the two. -/
theorem RoundTrips.test {left right : Expression} {t : Token}
    (make : Expression → Expression → Expression)
    (hl : RoundTrips debug statement left) (hr : RoundTrips debug statement right)
    (hlevel : (make left right).level = 4) (hchained : (make left right).chained = left.chained)
    (htokens : (make left right).tokens = enclose (left.parensAt 4) left.tokens ++
      t :: enclose (right.parensAt 5) right.tokens)
    (hnest : (make left right).nest = max (left.nest + (left.parensAt 4).toNat)
      (right.nest + (right.parensAt 5).toNat))
    (ht : t.binding = some 4) (heof : t ≠ .eof)
    (hloop : ∀ (p : Parser) (ts : List Token), p.ahead = t :: ts →
      comparisonLoop debug statement left left.chained p = (do
        advance
        let r ← parseChain debug statement .concat
        comparisonLoop debug statement (make left r) left.chained) p) :
    RoundTrips debug statement (make left right) := by
  constructor
  · rw [hlevel, htokens]
    exact (hl.begins_operand 4).append _
  · rw [hlevel, htokens, hnest, hchained]
    intro p rest hp hstop hdepth
    simp only [List.append_assoc, List.cons_append] at hp
    have hmid := Parser.ahead_skip hp
    have hright := Parser.ahead_skip_one hmid
    have hread : parseChain debug statement .concat _ = _ :=
      (hr.reads_operand (show 5 ≤ 10 by omega)).value hright hstop (by
        simp only [Parser.depth_skip]
        omega)
    have hleft := hl.reads_operand (show 4 ≤ 10 by omega) p _ hp
      (stops_cons ht (by omega)) (by omega)
    rw [hleft]
    show comparisonLoop debug statement left left.chained _ = comparisonLoop debug statement _ _ _
    rw [hloop _ _ hmid, advance_bind _ hmid heof, bind_of _ hread, Parser.skip_skip,
      Parser.skip_skip, List.length_append, List.length_cons, Nat.add_comm 1]

theorem RoundTrips.inList {operand list : Expression} (ho : RoundTrips debug statement operand)
    (hl : RoundTrips debug statement list) : RoundTrips debug statement (.inList operand list) := by
  apply RoundTrips.test (t := .in_) .inList ho hl rfl rfl rfl rfl rfl (by simp)
  intro p ts hp
  rw [comparisonLoop, peekToken_bind _ hp]
  rfl

theorem RoundTrips.like {operand pattern : Expression} (ho : RoundTrips debug statement operand)
    (hp : RoundTrips debug statement pattern) :
    RoundTrips debug statement (.like operand pattern) := by
  apply RoundTrips.test (t := .like) .like ho hp rfl rfl rfl rfl rfl (by simp)
  intro p ts hp
  rw [comparisonLoop, peekToken_bind _ hp]
  rfl

/-! ## Literals and names -/

/-- What the first token alone is, is read on the highest level. -/
theorem RoundTrips.primary {e : Expression} (hlevel : e.level = 10) (hbegins : Begins 10 e.tokens)
    (hread : ∀ (p : Parser) (rest : List Token), p.ahead = e.tokens ++ rest → Stops 11 rest →
      p.depth + e.nest ≤ maxExprDepth →
        parsePrimary debug statement p = some (.ok (e, p.skip e.tokens.length))) :
    RoundTrips debug statement e := by
  constructor
  · rw [hlevel]
    exact hbegins
  · rw [hlevel]
    exact hread

/-- A token on which no level has a prefix operator. -/
theorem passes_of_ne {level : Nat} {t : Token} (hnot : t ≠ .not) (hminus : t ≠ .minus)
    (hplus : t ≠ .plus) : Passes level t := by
  constructor
  · intro h
    exact absurd h hnot
  · rintro (h | h)
    · exact absurd h hminus
    · exact absurd h hplus

theorem RoundTrips.literal {lit : Literal} (h : lit.token.isSome) :
    RoundTrips debug statement (.literal lit) := by
  obtain ⟨t, ht⟩ := Option.isSome_iff_exists.mp h
  have htokens : (Expression.literal lit).tokens = [t] := by rw [Expression.tokens, ht]; rfl
  have hread : literalOf t = some lit ∧ t ∉ closers ∧ t ≠ .not ∧ t ≠ .minus ∧ t ≠ .plus := by
    cases lit with
    | bool b => cases b <;> cases ht <;> exact ⟨rfl, by simp [closers], by simp, by simp, by simp⟩
    | integer n => cases ht; exact ⟨rfl, by simp [closers], by simp, by simp, by simp⟩
    | float n => cases ht; exact ⟨rfl, by simp [closers], by simp, by simp, by simp⟩
    | string s => cases ht; exact ⟨rfl, by simp [closers], by simp, by simp, by simp⟩
    | null => cases ht; exact ⟨rfl, by simp [closers], by simp, by simp, by simp⟩
    | _ => cases ht
  obtain ⟨hlit, hclose, hnot, hminus, hplus⟩ := hread
  apply RoundTrips.primary rfl
  · rw [htokens]
    exact begins_cons _ hclose (passes_of_ne hnot hminus hplus)
  · intro p rest hp _ _
    rw [htokens] at hp ⊢
    have heof : t ≠ .eof := by
      rintro rfl
      cases hlit
    rw [parsePrimary, peekToken_bind _ hp, hlit]
    show (advance >>= _) p = _
    rw [advance_bind _ hp heof]
    rfl

theorem RoundTrips.parameter (name : String) : RoundTrips debug statement (.parameter name) := by
  apply RoundTrips.primary rfl
  · exact begins_cons _ (by simp [closers]) (passes_of_ne (by simp) (by simp) (by simp))
  · intro p rest hp _ _
    rw [parsePrimary, peekToken_bind _ hp]
    show (advance >>= _) p = _
    rw [advance_bind _ hp (by simp)]
    rfl

theorem nameToken_cases (name : String) : nameToken name = .ident name ∨
    nameToken name = .type ∧ name = "type" ∨
    (∃ function, aggregateOf (nameToken name) = some function) ∧
      keywordToString debug (nameToken name) = name ∧ literalOf (nameToken name) = none ∧
        nameToken name ∉ closers ∧ nameToken name ≠ .not ∧ nameToken name ≠ .minus ∧
          nameToken name ≠ .plus := by
  have hkeywords : ∀ k ∈ nameKeywords, k.2 = .type ∧ k.1 = "type" ∨
      (∃ function, aggregateOf k.2 = some function) ∧ keywordToString debug k.2 = k.1 ∧
        literalOf k.2 = none ∧ k.2 ∉ closers ∧ k.2 ≠ .not ∧ k.2 ≠ .minus ∧ k.2 ≠ .plus := by
    intro k hk
    simp only [nameKeywords, List.mem_cons, List.not_mem_nil, or_false] at hk
    rcases hk with rfl | rfl | rfl | rfl | rfl | rfl | rfl
    · exact .inl ⟨rfl, rfl⟩
    all_goals exact .inr ⟨⟨_, rfl⟩, rfl, rfl, by decide, by decide, by decide, by decide⟩
  unfold nameToken
  cases h : nameKeywords.lookup name with
  | none => exact .inl rfl
  | some t =>
    obtain ⟨before, after, hlist, -⟩ := List.lookup_eq_some_iff.mp h
    apply Or.inr (hkeywords (name, t) _)
    rw [hlist]
    exact List.mem_append_right _ (List.mem_cons_self ..)

theorem parseCallOrName_name {p : Parser} {t : Token} (name : String) (hp : p.ahead = t :: rest)
    (ht : t ≠ .eof) (hstop : Stops 11 rest) :
    parseCallOrName debug statement name p = some (.ok (.identifier name, p.skip 1)) := by
  have hrest : (p.skip 1).ahead = rest := Parser.ahead_skip_one hp
  rw [parseCallOrName, advance_bind _ hp ht, bind_of (x := peekToken) _ rfl,
    if_neg (hstop.peek_ne hrest rfl (le_refl 11))]
  rfl

theorem RoundTrips.identifier {name : String} (h : name ≠ "*") :
    RoundTrips debug statement (.identifier name) := by
  rcases @nameToken_cases debug name with hident | ⟨htype, rfl⟩ |
    ⟨⟨function, hagg⟩, hname, hlit, hclose, hnot, hminus, hplus⟩
  · have htokens : (Expression.identifier name).tokens = [.ident name] := by
      rw [Expression.tokens, hident]
    apply RoundTrips.primary rfl
    · rw [htokens]
      exact begins_cons _ (by simp [closers]) (passes_of_ne (by simp) (by simp) (by simp))
    · intro p rest hp hstop _
      rw [htokens] at hp ⊢
      rw [parsePrimary, peekToken_bind _ hp]
      exact parseCallOrName_name name hp (by simp) hstop
  · apply RoundTrips.primary rfl
    · exact begins_cons _ (by decide) (passes_of_ne (by decide) (by decide) (by decide))
    · intro p rest hp hstop _
      rw [parsePrimary, peekToken_bind _ hp]
      exact parseCallOrName_name "type" hp (by decide) hstop
  · -- an aggregate's keyword with no parenthesis behind it
    apply RoundTrips.primary rfl
    · exact begins_cons _ hclose (passes_of_ne hnot hminus hplus)
    · intro p rest hp hstop _
      have heof : nameToken name ≠ .eof := by
        intro heof
        exact hclose (by rw [heof]; decide)
      have hahead : p.ahead = nameToken name :: rest := hp
      have hlook : lookaheadIsLParen p = some (.ok (false, p)) := by
        have hnext : p.peekAt 1 ≠ some .lParen := by
          rw [Parser.peekAt_one_of_ahead hahead]
          intro hlparen
          cases rest with
          | nil => cases hlparen
          | cons u us =>
            cases hlparen
            exact absurd (hstop 11 rfl) (Nat.lt_irrefl _)
        show some (Except.ok (decide (p.peekAt 1 = some .lParen), p)) = _
        rw [decide_eq_false hnext]
      rw [parsePrimary, peekToken_bind _ hahead, hlit, hagg]
      show (lookaheadIsLParen >>= _) p = _
      rw [bind_of _ hlook, if_neg (by simp), advance_bind _ hahead heof, hname]
      rfl

/-! ## Calls, lists and maps -/

theorem stops_moreItems {items : List Expression} {t : Token} {rest : List Token}
    (ht : t.binding = none) : Stops 0 (Expression.moreItemTokens items ++ t :: rest) := by
  cases items with
  | nil => exact stops_of_ends ht 0
  | cons item items => exact stops_of_ends rfl 0

theorem moreItems_tokens {items : List Expression} {t : Token}
    (h : ∀ e ∈ items, RoundTrips debug statement e) (ht : t ≠ .comma) (hend : t.binding = none)
    (before : List Expression) {p : Parser}
    (hp : p.ahead = Expression.moreItemTokens items ++ t :: rest)
    (hdepth : p.depth + Expression.itemNest items ≤ maxExprDepth) :
    moreItems debug statement before p
      = some (.ok (before ++ items, p.skip (Expression.moreItemTokens items).length)) := by
  induction items generalizing before p with
  | nil =>
    have hne : p.peek ≠ .comma := by
      rw [Parser.peek_of_ahead hp]
      exact ht
    rw [moreItems, matchToken_bind_of_ne _ hne, if_neg (by simp), List.append_nil]
    rfl
  | cons item items ih =>
    simp only [Expression.moreItemTokens, List.cons_append, List.append_assoc] at hp
    simp only [Expression.itemNest] at hdepth
    have hitem := Parser.ahead_skip_one hp
    have hread := (h item (List.mem_cons_self ..)).value hitem (stops_moreItems hend) (by
      rw [Parser.depth_skip]
      omega)
    have hmore := ih (fun e he => h e (List.mem_cons_of_mem _ he)) (before ++ [item])
      (Parser.ahead_skip hitem) (by
        simp only [Parser.depth_skip]
        omega)
    rw [moreItems, matchToken_bind _ hp (by simp), if_pos rfl, bind_of _ hread, hmore]
    simp only [Parser.skip_skip, List.append_assoc, Expression.moreItemTokens, List.length_cons,
      List.length_append, List.cons_append, List.nil_append, Nat.add_comm, Nat.add_left_comm]

theorem parseItems_tokens {items : List Expression} {close : Token}
    (h : ∀ e ∈ items, RoundTrips debug statement e) (hclose : close ∈ closers)
    (hcomma : close ≠ .comma) (hend : close.binding = none) {p : Parser}
    (hp : p.ahead = Expression.itemTokens items ++ close :: rest)
    (hdepth : p.depth + Expression.itemNest items ≤ maxExprDepth) :
    parseItems debug statement close p
      = some (.ok (items, p.skip (Expression.itemTokens items).length)) := by
  cases items with
  | nil =>
    rw [parseItems, peekToken_bind _ hp, if_neg (by simp)]
    rfl
  | cons item items =>
    simp only [Expression.itemTokens, List.append_assoc] at hp
    simp only [Expression.itemNest] at hdepth
    have hitem := h item (List.mem_cons_self ..)
    have hread := hitem.value hp (stops_moreItems hend) (by omega)
    have hmore := moreItems_tokens (fun e he => h e (List.mem_cons_of_mem _ he)) hcomma hend [item]
      (Parser.ahead_skip hp) (by
        rw [Parser.depth_skip]
        omega)
    rw [parseItems, bind_of (x := peekToken) _ rfl, if_pos (hitem.begins.peek_ne hp hclose),
      bind_of _ hread, hmore, Parser.skip_skip, Expression.itemTokens, List.length_append]
    rfl

theorem callToken_cases (name : String) :
    callToken name = .type ∧ name = "type" ∨ callToken name = .ident name := by
  unfold callToken
  by_cases h : name = "type"
  · exact .inl ⟨if_pos h, h⟩
  · exact .inr (if_neg h)

theorem RoundTrips.functionCall (name : String) {args : List Expression}
    (h : ∀ e ∈ args, RoundTrips debug statement e) :
    RoundTrips debug statement (.functionCall name args) := by
  have hcall : ∀ (p : Parser) (rest : List Token),
      p.ahead = (Expression.functionCall name args).tokens ++ rest →
      p.depth + Expression.itemNest args ≤ maxExprDepth →
        parseCallOrName debug statement name p = some (.ok (.functionCall name args,
          p.skip (Expression.functionCall name args).tokens.length)) := by
    intro p rest hp hdepth
    simp only [Expression.tokens, List.cons_append, List.append_assoc, List.nil_append] at hp
    have hparen := Parser.ahead_skip_one hp
    have hitems := Parser.ahead_skip_one hparen
    have heof : callToken name ≠ .eof := by
      rcases callToken_cases name with ⟨ht, -⟩ | ht <;> rw [ht] <;> simp
    have hread := parseItems_tokens h (by decide) (by simp) rfl hitems hdepth
    rw [parseCallOrName, advance_bind _ hp heof, peekToken_bind _ hparen, if_pos rfl,
      advance_bind _ hparen (by simp), bind_of _ hread,
      expect_bind _ _ (Parser.ahead_skip hitems) (by simp)]
    simp only [Parser.skip_skip]
    apply pure_skip
    simp only [Expression.tokens, List.length_cons, List.length_append, List.length_nil]
    omega
  apply RoundTrips.primary rfl
  · apply begins_cons
    · rcases callToken_cases name with ⟨ht, -⟩ | ht <;> rw [ht] <;> simp [closers]
    · rcases callToken_cases name with ⟨ht, -⟩ | ht <;> rw [ht] <;> simp [Passes]
  · intro p rest hp _ hdepth
    have hread := hcall p rest hp hdepth
    simp only [Expression.tokens, List.cons_append] at hp
    rw [parsePrimary, peekToken_bind _ hp]
    rcases callToken_cases name with ⟨ht, rfl⟩ | ht
    · exact hread
    · rw [ht]
      exact hread

theorem RoundTrips.list {items : List Expression} (h : ∀ e ∈ items, RoundTrips debug statement e) :
    RoundTrips debug statement (.list items) := by
  apply RoundTrips.primary rfl
  · exact begins_cons _ (by decide) (passes_of_ne (by simp) (by simp) (by simp))
  · intro p rest hp _ hdepth
    simp only [Expression.tokens, List.cons_append, List.append_assoc, List.nil_append] at hp
    have hitems := Parser.ahead_skip_one hp
    have hread := parseItems_tokens h (by decide) (by simp) rfl hitems hdepth
    rw [parsePrimary, peekToken_bind _ hp]
    show (advance >>= _) p = _
    rw [advance_bind _ hp (by simp), bind_of _ hread,
      expect_bind _ _ (Parser.ahead_skip hitems) (by simp)]
    simp only [Parser.skip_skip]
    apply pure_skip
    simp only [Expression.tokens, List.length_cons, List.length_append, List.length_nil]
    omega

theorem expectIdent_bind {β : Type} (f : String → ParseM β) {p : Parser} {name : String}
    (h : p.ahead = .ident name :: rest) : (expectIdent debug >>= f) p = f name (p.skip 1) := by
  apply bind_of
  rw [expectIdent, peekToken_bind _ h]
  show (advance >>= _) p = _
  rw [advance_bind _ h (by simp)]
  rfl

theorem stops_moreEntries {entries : List (String × Expression)} {rest : List Token} :
    Stops 0 (Expression.moreEntryTokens entries ++ .rBrace :: rest) := by
  cases entries with
  | nil => exact stops_of_ends rfl 0
  | cons entry entries => exact stops_of_ends rfl 0

theorem moreEntries_tokens {entries : List (String × Expression)}
    (h : ∀ e ∈ entries, RoundTrips debug statement e.2) (before : List (String × Expression))
    {p : Parser} (hp : p.ahead = Expression.moreEntryTokens entries ++ .rBrace :: rest)
    (hdepth : p.depth + Expression.entryNest entries ≤ maxExprDepth) :
    moreEntries debug statement before p
      = some (.ok (before ++ entries, p.skip (Expression.moreEntryTokens entries).length)) := by
  induction entries generalizing before p with
  | nil =>
    have hne : p.peek ≠ .comma := by
      rw [Parser.peek_of_ahead hp]
      simp
    rw [moreEntries, matchToken_bind_of_ne _ hne, if_neg (by simp), List.append_nil]
    rfl
  | cons entry entries ih =>
    obtain ⟨key, value⟩ := entry
    simp only [Expression.moreEntryTokens, List.cons_append, List.append_assoc] at hp
    simp only [Expression.entryNest] at hdepth
    have hkey := Parser.ahead_skip_one hp
    have hcolon := Parser.ahead_skip_one hkey
    have hvalue := Parser.ahead_skip_one hcolon
    have hread := (h (key, value) (List.mem_cons_self ..)).value hvalue stops_moreEntries (by
      simp only [Parser.depth_skip]
      omega)
    have hmore := ih (fun e he => h e (List.mem_cons_of_mem _ he)) (before ++ [(key, value)])
      (Parser.ahead_skip hvalue) (by
        simp only [Parser.depth_skip]
        omega)
    have hlen : 1 + (1 + (1 + (value.tokens.length + (Expression.moreEntryTokens entries).length)))
        = (Expression.moreEntryTokens ((key, value) :: entries)).length := by
      simp only [Expression.moreEntryTokens, List.length_cons, List.length_append, List.cons_append]
      omega
    rw [moreEntries, matchToken_bind _ hp (by simp), if_pos rfl, expectIdent_bind _ hkey,
      expect_bind _ _ hcolon (by simp), bind_of _ hread, hmore]
    simp only [Parser.skip_skip, Nat.add_assoc, hlen, List.append_assoc, List.cons_append,
      List.nil_append]

theorem parseEntries_tokens {entries : List (String × Expression)}
    (h : ∀ e ∈ entries, RoundTrips debug statement e.2) {p : Parser}
    (hp : p.ahead = Expression.entryTokens entries ++ .rBrace :: rest)
    (hdepth : p.depth + Expression.entryNest entries ≤ maxExprDepth) :
    parseEntries debug statement p
      = some (.ok (entries, p.skip (Expression.entryTokens entries).length)) := by
  cases entries with
  | nil =>
    rw [parseEntries, peekToken_bind _ hp, if_neg (by simp)]
    rfl
  | cons entry entries =>
    obtain ⟨key, value⟩ := entry
    simp only [Expression.entryTokens, List.cons_append, List.append_assoc] at hp
    simp only [Expression.entryNest] at hdepth
    have hcolon := Parser.ahead_skip_one hp
    have hvalue := Parser.ahead_skip_one hcolon
    have hread := (h (key, value) (List.mem_cons_self ..)).value hvalue stops_moreEntries (by
      simp only [Parser.depth_skip]
      omega)
    have hmore := moreEntries_tokens (fun e he => h e (List.mem_cons_of_mem _ he)) [(key, value)]
      (Parser.ahead_skip hvalue) (by
        simp only [Parser.depth_skip]
        omega)
    have hlen : 1 + (1 + (value.tokens.length + (Expression.moreEntryTokens entries).length))
        = (Expression.entryTokens ((key, value) :: entries)).length := by
      simp only [Expression.entryTokens, List.length_cons, List.length_append, List.cons_append]
      omega
    rw [parseEntries, peekToken_bind _ hp, if_pos (by simp), expectIdent_bind _ hp,
      expect_bind _ _ hcolon (by simp), bind_of _ hread, hmore]
    simp only [Parser.skip_skip, Nat.add_assoc, hlen, List.cons_append, List.nil_append]

theorem RoundTrips.map {entries : List (String × Expression)}
    (h : ∀ e ∈ entries, RoundTrips debug statement e.2) :
    RoundTrips debug statement (.map entries) := by
  apply RoundTrips.primary rfl
  · exact begins_cons _ (by decide) (passes_of_ne (by simp) (by simp) (by simp))
  · intro p rest hp _ hdepth
    simp only [Expression.tokens, List.cons_append, List.append_assoc, List.nil_append] at hp
    have hentries := Parser.ahead_skip_one hp
    have hread := parseEntries_tokens h hentries hdepth
    rw [parsePrimary, peekToken_bind _ hp]
    show (advance >>= _) p = _
    rw [advance_bind _ hp (by simp), bind_of _ hread,
      expect_bind _ _ (Parser.ahead_skip hentries) (by simp)]
    simp only [Parser.skip_skip]
    apply pure_skip
    simp only [Expression.tokens, List.length_cons, List.length_append, List.length_nil]
    omega

/-! ## Aggregates -/

theorem aggregateOf_token {function : AggregateFunction} {t : Token} (h : function.token = some t) :
    aggregateOf t = some function ∧ literalOf t = none ∧ t ∉ closers ∧ t ≠ .eof ∧ Passes 10 t := by
  cases function <;> cases h <;>
    exact ⟨rfl, rfl, by decide, by simp, passes_of_ne (by simp) (by simp) (by simp)⟩

theorem RoundTrips.aggregate {function : AggregateFunction} (hf : function.token.isSome)
    (distinct : Bool) {arg : Option Expression} (h : ∀ e ∈ arg, RoundTrips debug statement e) :
    RoundTrips debug statement (.aggregate function distinct arg) := by
  obtain ⟨t, ht⟩ := Option.isSome_iff_exists.mp hf
  obtain ⟨hagg, hlit, hclose, heof, hpass⟩ := aggregateOf_token ht
  have htokens : (Expression.aggregate function distinct arg).tokens
      = t :: .lParen :: Expression.argumentTokens distinct arg ++ [.rParen] := by
    rw [Expression.tokens, ht]
    rfl
  apply RoundTrips.primary rfl
  · rw [htokens]
    exact begins_cons _ hclose hpass
  · intro p rest hp _ hdepth
    rw [htokens] at hp
    simp only [List.cons_append, List.append_assoc, List.nil_append] at hp
    have hparen := Parser.ahead_skip_one hp
    have hin := Parser.ahead_skip_one hparen
    have hlook : lookaheadIsLParen p = some (.ok (true, p)) := by
      show some (Except.ok (decide (p.peekAt 1 = some .lParen), p)) = _
      rw [Parser.peekAt_one_of_ahead hp]
      rfl
    rw [parsePrimary, peekToken_bind _ hp, hlit, hagg]
    show (lookaheadIsLParen >>= _) p = _
    rw [bind_of _ hlook, if_pos rfl, parseAggregate, advance_bind _ hp heof,
      expect_bind _ _ hparen (by simp), htokens]
    cases arg with
    | none =>
      cases distinct with
      | false =>
        have hstar := Parser.ahead_skip_one hin
        rw [matchToken_bind _ hin (by simp), if_pos rfl, expect_bind _ _ hstar (by simp)]
        rfl
      | true =>
        have hstar : ((p.skip 1).skip 1).peek ≠ .star := by
          rw [Parser.peek_of_ahead hin]
          simp
        have hclosed := Parser.ahead_skip_one hin
        rw [matchToken_bind_of_ne _ hstar, if_neg (by simp), matchToken_bind _ hin (by simp),
          peekToken_bind _ hclosed, if_neg (by simp), expect_bind _ _ hclosed (by simp)]
        rfl
    | some arg =>
      have harg := h arg rfl
      cases distinct with
      | false =>
        rw [Expression.argumentTokens] at hin
        have hbegin : ∀ u ∈ closers, ((p.skip 1).skip 1).peek ≠ u :=
          fun u hu => harg.begins.peek_ne hin hu
        have hread := harg.value hin (stops_of_ends rfl 0) hdepth
        rw [matchToken_bind_of_ne _ (hbegin _ (by decide)), if_neg (by simp),
          matchToken_bind_of_ne _ (hbegin _ (by decide)), bind_of (x := peekToken) _ rfl,
          if_pos (hbegin _ (by decide)), bind_of _ hread,
          expect_bind _ _ (Parser.ahead_skip hin) (by simp)]
        simp only [Parser.skip_skip]
        apply pure_skip
        simp only [Expression.argumentTokens, List.length_cons, List.length_append, List.length_nil]
        omega
      | true =>
        rw [Expression.argumentTokens] at hin
        have hstar : ((p.skip 1).skip 1).peek ≠ .star := by
          rw [Parser.peek_of_ahead hin]
          simp
        have hin' := Parser.ahead_skip_one hin
        have hbegin : ∀ u ∈ closers, (((p.skip 1).skip 1).skip 1).peek ≠ u :=
          fun u hu => harg.begins.peek_ne hin' hu
        have hread := harg.value hin' (stops_of_ends rfl 0) hdepth
        rw [matchToken_bind_of_ne _ hstar, if_neg (by simp), matchToken_bind _ hin (by simp),
          bind_of (x := peekToken) _ rfl, if_pos (hbegin _ (by decide)), bind_of _ hread,
          expect_bind _ _ (Parser.ahead_skip hin') (by simp)]
        simp only [Parser.skip_skip]
        apply pure_skip
        simp only [Expression.argumentTokens, List.length_cons, List.length_append, List.length_nil]
        omega

/-! ## `CASE` -/

theorem stops_whenTokens {clauses : List (Expression × Expression)} (hrest : Stops 0 rest) :
    Stops 0 (Expression.whenTokens clauses ++ rest) := by
  cases clauses with
  | nil => exact hrest
  | cons clause clauses => exact stops_of_ends rfl 0

theorem whenLoop_tokens {clauses : List (Expression × Expression)}
    (hc : ∀ c ∈ clauses, RoundTrips debug statement c.1)
    (hr : ∀ c ∈ clauses, RoundTrips debug statement c.2) (hstop : Stops 0 rest)
    (hwhen : rest.headD .eof ≠ .when) (before : List (Expression × Expression)) {p : Parser}
    (hp : p.ahead = Expression.whenTokens clauses ++ rest)
    (hdepth : p.depth + Expression.whenNest clauses ≤ maxExprDepth) :
    whenLoop debug statement before p
      = some (.ok (before ++ clauses, p.skip (Expression.whenTokens clauses).length)) := by
  induction clauses generalizing before p with
  | nil =>
    have hrest : p.ahead = rest := hp
    have hne : p.peek ≠ .when := by rwa [Parser.peek_eq_headD, hrest]
    rw [whenLoop, matchToken_bind_of_ne _ hne, if_neg (by simp), List.append_nil]
    rfl
  | cons clause clauses ih =>
    obtain ⟨condition, result⟩ := clause
    simp only [Expression.whenTokens, List.cons_append, List.append_assoc] at hp
    simp only [Expression.whenNest] at hdepth
    have hcondition := Parser.ahead_skip_one hp
    have hthen := Parser.ahead_skip hcondition
    have hresult := Parser.ahead_skip_one hthen
    have hreadc := (hc (condition, result) (List.mem_cons_self ..)).value hcondition
      (stops_of_ends rfl 0) (by
        simp only [Parser.depth_skip]
        omega)
    have hreadr := (hr (condition, result) (List.mem_cons_self ..)).value hresult
      (stops_whenTokens hstop) (by
        simp only [Parser.depth_skip]
        omega)
    have hmore := ih (fun c h => hc c (List.mem_cons_of_mem _ h))
      (fun c h => hr c (List.mem_cons_of_mem _ h)) (before ++ [(condition, result)])
      (Parser.ahead_skip hresult) (by
        simp only [Parser.depth_skip]
        omega)
    have hlen : 1 + (condition.tokens.length + (1 + (result.tokens.length
        + (Expression.whenTokens clauses).length)))
          = (Expression.whenTokens ((condition, result) :: clauses)).length := by
      simp only [Expression.whenTokens, List.length_cons, List.length_append, List.cons_append]
      omega
    rw [whenLoop, matchToken_bind _ hp (by simp), if_pos rfl, bind_of _ hreadc,
      expect_bind _ _ hthen (by simp), bind_of _ hreadr, hmore]
    simp only [Parser.skip_skip, Nat.add_assoc, hlen, List.append_assoc, List.cons_append,
      List.nil_append]

theorem parseCaseArms_tokens {elseClause : Option Expression}
    {clauses : List (Expression × Expression)} (operand : Option Expression)
    (hc : ∀ c ∈ clauses, RoundTrips debug statement c.1)
    (hr : ∀ c ∈ clauses, RoundTrips debug statement c.2)
    (he : ∀ e ∈ elseClause, RoundTrips debug statement e) {p : Parser}
    (hp : p.ahead = Expression.whenTokens clauses ++ (Expression.elseTokens elseClause ++
      .end_ :: rest))
    (hdepth : p.depth + max (Expression.whenNest clauses) (Expression.optionNest elseClause)
      ≤ maxExprDepth) :
    parseCaseArms debug statement operand p
      = some (.ok (.caseWhen operand clauses elseClause, p.skip
        ((Expression.whenTokens clauses).length + (Expression.elseTokens elseClause).length + 1))) := by
  have hend := Parser.ahead_skip hp
  cases elseClause with
  | none =>
    have hloop := whenLoop_tokens hc hr (stops_of_ends rfl 0) (by simp) [] hp (by omega)
    have helse : (p.skip (Expression.whenTokens clauses).length).peek ≠ .else_ := by
      rw [Parser.peek_of_ahead hend]
      simp
    rw [parseCaseArms, bind_of _ hloop, matchToken_bind_of_ne _ helse, if_neg (by simp),
      expect_bind _ _ hend (by simp), Parser.skip_skip]
    rfl
  | some result =>
    simp only [Expression.optionNest] at hdepth
    have hresult := Parser.ahead_skip_one hend
    have hloop := whenLoop_tokens hc hr (stops_of_ends rfl 0) (by simp) [] hp (by omega)
    have hread := (he result rfl).value hresult (stops_of_ends rfl 0) (by
      simp only [Parser.depth_skip]
      omega)
    rw [parseCaseArms, bind_of _ hloop, matchToken_bind _ hend (by simp), if_pos rfl,
      bind_of _ hread, expect_bind _ _ (Parser.ahead_skip hresult) (by simp)]
    simp only [Parser.skip_skip]
    apply pure_skip
    simp only [Expression.elseTokens, List.length_cons]
    omega

theorem RoundTrips.caseWhen {operand elseClause : Option Expression}
    {clauses : List (Expression × Expression)} (ho : ∀ e ∈ operand, RoundTrips debug statement e)
    (hne : clauses ≠ []) (hc : ∀ c ∈ clauses, RoundTrips debug statement c.1)
    (hr : ∀ c ∈ clauses, RoundTrips debug statement c.2)
    (he : ∀ e ∈ elseClause, RoundTrips debug statement e) :
    RoundTrips debug statement (.caseWhen operand clauses elseClause) := by
  apply RoundTrips.primary rfl
  · exact begins_cons _ (by decide) (passes_of_ne (by simp) (by simp) (by simp))
  · intro p rest hp _ hdepth
    simp only [Expression.tokens, List.cons_append, List.append_assoc, List.nil_append] at hp
    simp only [Expression.nest] at hdepth
    have hin := Parser.ahead_skip_one hp
    rw [parsePrimary, peekToken_bind _ hp]
    show parseCaseExpression debug statement p = _
    rw [parseCaseExpression, expect_bind _ _ hp (by simp)]
    cases operand with
    | none =>
      have harms := parseCaseArms_tokens none hc hr he hin (by
        rw [Parser.depth_skip]
        omega)
      have hwhen : (p.skip 1).peek = .when := by
        obtain ⟨clause, more, rfl⟩ := List.exists_cons_of_ne_nil hne
        rw [Expression.operandTokens, Expression.whenTokens] at hin
        exact Parser.peek_of_ahead hin
      rw [bind_of (x := peekToken) _ rfl, hwhen, if_neg (by simp), harms]
      simp only [Parser.skip_skip]
      apply pure_skip
      simp only [Expression.tokens, Expression.operandTokens, List.length_cons, List.length_append,
        List.length_nil]
      omega
    | some operand =>
      simp only [Expression.optionNest] at hdepth
      have hoperand := ho operand rfl
      rw [Expression.operandTokens] at hin
      have hstop : Stops 0 (Expression.whenTokens clauses ++
          (Expression.elseTokens elseClause ++ .end_ :: rest)) := by
        apply stops_whenTokens
        cases elseClause <;> exact stops_of_ends rfl 0
      have hread := hoperand.value hin hstop (by
        rw [Parser.depth_skip]
        omega)
      have harms := parseCaseArms_tokens (some operand) hc hr he (Parser.ahead_skip hin) (by
        simp only [Parser.depth_skip]
        omega)
      rw [bind_of (x := peekToken) _ rfl, if_pos (hoperand.begins.peek_ne hin (by decide)),
        bind_of _ hread, harms]
      simp only [Parser.skip_skip]
      apply pure_skip
      simp only [Expression.tokens, Expression.operandTokens, List.length_cons, List.length_append,
        List.length_nil]
      omega

/-! ## The round trip -/

theorem Printable.roundTrips {e : Expression} (h : Printable e) : RoundTrips debug statement e := by
  induction h with
  | literal h => exact .literal h
  | identifier h => exact .identifier h
  | parameter name => exact .parameter name
  | propertyAccess _ property ih => exact ih.propertyAccess property
  | functionCall name _ ih => exact .functionCall name ih
  | binaryOp op _ _ ihl ihr => exact .binaryOp op ihl ihr
  | unaryOp op _ ih => exact ih.unaryOp op
  | caseWhen _ hne _ _ _ iho ihc ihr ihe => exact .caseWhen iho hne ihc ihr ihe
  | aggregate h distinct _ ih => exact .aggregate h distinct ih
  | list _ ih => exact .list ih
  | map _ ih => exact .map ih
  | isNull _ ih => exact ih.isNull
  | isNotNull _ ih => exact ih.isNotNull
  | inList _ _ iho ihl => exact .inList iho ihl
  | like _ _ iho ihp => exact .like iho ihp

end Reads

/-- Printing an expression and parsing it gives the expression back, and leaves what follows. -/
theorem parseExpression_tokens (debug : Token → String) (statement : ParseM GqlStatement)
    {e : Expression} (he : Printable e) {p : Parser} {rest : List Token}
    (hp : p.ahead = e.tokens ++ rest) (hend : (rest.headD .eof).EndsExpression)
    (hdepth : p.depth + e.nest ≤ maxExprDepth) :
    parseExpression debug statement p = some (.ok (e, p.skip e.tokens.length)) := by
  apply he.roundTrips.value hp _ hdepth
  intro l hl
  rw [Token.EndsExpression, hl] at hend
  cases hend

/-- `NOT (1 + 2) * -x`, where only the sum needs its parentheses. -/
def negatedProduct : Expression :=
  .unaryOp .not (.binaryOp (.binaryOp (.literal (.integer 1)) .add (.literal (.integer 2))) .mul
    (.unaryOp .neg (.identifier "x")))

theorem parseExpression_negatedProduct :
    negatedProduct.tokens = [.not, .lParen, .integerLit 1, .plus, .integerLit 2, .rParen, .star,
      .minus, .ident "x"] ∧
    parseExpression (fun _ => "") (pure .listGraphs)
        ⟨(negatedProduct.tokens ++ [Token.eof]).map fun t => ⟨t, ⟨0, 0, 0⟩⟩, 0, 0⟩ =
      some (.ok (negatedProduct,
        ⟨(negatedProduct.tokens ++ [Token.eof]).map fun t => ⟨t, ⟨0, 0, 0⟩⟩, 9, 0⟩)) := by
  have hprintable : Printable negatedProduct :=
    .unaryOp .not (.binaryOp .mul (.binaryOp .add (.literal rfl) (.literal rfl))
      (.unaryOp .neg (.identifier (by decide))))
  exact ⟨rfl, parseExpression_tokens (fun _ => "") (pure .listGraphs) hprintable
    (show _ = _ ++ [Token.eof] from rfl) rfl (by decide)⟩

end Synaptica.Gql
