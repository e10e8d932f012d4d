import Synaptica.Gql.ParserRules

/-!
# Parsing an expression ends

By induction on the tokens that are left: every parsing function of expressions calls itself and the
others behind a token it has read, or calls a function of a higher level on the same token. What ends on
fewer tokens is collected in `ExpressionsEnd`; the levels are then gone through from the highest down.
-/

namespace Synaptica.Gql

open Ending

section Ends

variable {tokens : List SpannedToken} {debug : Token → String} {s s' : ParseM GqlStatement}
  {p : Parser}

/-- On `p` the parsing functions of expressions end, whichever of the two parsers of nested statements
they are given. -/
structure ExpressionsEnd (tokens : List SpannedToken) (debug : Token → String)
    (s s' : ParseM GqlStatement) (p : Parser) : Prop where
  chain : ∀ level, Ends tokens (parseChain debug s level) (parseChain debug s' level) p
    fun _ q => p.Progress q
  operand : ∀ level, Ends tokens (parseOperand debug s level) (parseOperand debug s' level) p
    fun _ q => p.Progress q
  chainLoop : ∀ level left, Ends tokens (chainLoop debug s level left)
    (chainLoop debug s' level left) p fun _ q => p.Forward q
  notExpr : Ends tokens (parseNotExpr debug s) (parseNotExpr debug s') p fun _ q => p.Progress q
  comparisonLoop : ∀ left had, Ends tokens (comparisonLoop debug s left had)
    (comparisonLoop debug s' left had) p fun _ q => p.Forward q
  unary : Ends tokens (parseUnaryExpr debug s) (parseUnaryExpr debug s') p fun _ q => p.Progress q
  postfixLoop : ∀ e, Ends tokens (postfixLoop debug s e) (postfixLoop debug s' e) p
    fun _ q => p.Forward q
  items : ∀ close, Ends tokens (parseItems debug s close) (parseItems debug s' close) p
    fun _ q => p.Forward q
  moreItems : ∀ items, Ends tokens (moreItems debug s items) (moreItems debug s' items) p
    fun _ q => p.Forward q
  entries : Ends tokens (parseEntries debug s) (parseEntries debug s') p fun _ q => p.Forward q
  moreEntries : ∀ entries, Ends tokens (moreEntries debug s entries) (moreEntries debug s' entries) p
    fun _ q => p.Forward q
  caseArms : ∀ operand, Ends tokens (parseCaseArms debug s operand) (parseCaseArms debug s' operand) p
    fun _ q => p.Progress q
  whenLoop : ∀ clauses, Ends tokens (whenLoop debug s clauses) (whenLoop debug s' clauses) p
    fun _ q => p.Forward q

/-- Wherever fewer tokens are left than on `p`, `s` and `s'` end, alike. -/
def NestedEnd (tokens : List SpannedToken) (s s' : ParseM GqlStatement) (p : Parser) : Prop :=
  ∀ q, q.On tokens → q.left < p.left → Ends tokens s s' q fun _ r => q.Progress r

/-- Wherever fewer tokens are left than on `p`, the parsing functions end. -/
def EndBelow (tokens : List SpannedToken) (debug : Token → String) (s s' : ParseM GqlStatement)
    (p : Parser) : Prop :=
  ∀ q, q.On tokens → q.left < p.left → ExpressionsEnd tokens debug s s' q

/-! ## Loops -/

theorem ChainLevel.ne_eof_of_op {level : ChainLevel} {t : Token} {op : BinaryOp}
    (h : level.op t = some op) : t ≠ .eof := by
  rintro rfl
  cases level <;> cases h

theorem comparisonOp_ne_eof {t : Token} {op : BinaryOp} (h : comparisonOp t = some op) :
    t ≠ .eof := by
  rintro rfl
  cases h

theorem ends_chainLoop (hp : p.On tokens) (ih : EndBelow tokens debug s s' p) (level : ChainLevel)
    (left : Expression) : Ends tokens (chainLoop debug s level left) (chainLoop debug s' level left) p
      fun _ q => p.Forward q := by
  rw [chainLoop, chainLoop]
  apply ends_peek
  cases hop : level.op p.peek with
  | none => exact .pure (.refl p)
  | some op =>
    apply ends_advance hp (ChainLevel.ne_eof_of_op hop)
    intro q hq hon
    apply ((ih q hon hq.left_lt).operand level).read hon
    intro right r hr hon'
    have hpr := hq.trans hr
    apply ((ih r hon' hpr.left_lt).chainLoop level (.binaryOp left op right)).mono
    intro _ t ht
    exact (hpr.trans_forward ht).toForward

theorem ends_postfixLoop (hp : p.On tokens) (ih : EndBelow tokens debug s s' p) (e : Expression) :
    Ends tokens (postfixLoop debug s e) (postfixLoop debug s' e) p fun _ q => p.Forward q := by
  rw [postfixLoop, postfixLoop]
  apply ends_peek
  apply EndAlike.ite
  · intro hdot
    apply ends_advance hp (by simp [hdot])
    intro q hq hon
    apply (ends_identOrKeyword hon).read hon
    intro property r hr hon'
    have hpr := hq.trans hr
    apply ((ih r hon' hpr.left_lt).postfixLoop (.propertyAccess e property)).mono
    intro _ t ht
    exact (hpr.trans_forward ht).toForward
  · intro _
    exact .pure (.refl p)

/-- One round of the loop of comparisons behind the token of a test. -/
theorem ends_comparisonStep {make : Expression → Expression} {had : Bool} (hp : p.On tokens)
    (ih : EndBelow tokens debug s s' p) (hpeek : p.peek ≠ .eof) :
    Ends tokens
      (do
        advance
        let right ← parseChain debug s .concat
        comparisonLoop debug s (make right) had)
      (do
        advance
        let right ← parseChain debug s' .concat
        comparisonLoop debug s' (make right) had) p fun _ q => p.Forward q := by
  apply ends_advance hp hpeek
  intro q hq hon
  apply ((ih q hon hq.left_lt).chain .concat).read hon
  intro right r hr hon'
  have hpr := hq.trans hr
  apply ((ih r hon' hpr.left_lt).comparisonLoop (make right) had).mono
  intro _ t ht
  exact (hpr.trans_forward ht).toForward

/-- `NULL` and the rest of the loop, behind `IS`. -/
theorem ends_comparisonNull {q : Parser} {had : Bool} (e : Expression) (hpq : p.Progress q)
    (hon : q.On tokens) (ih : EndBelow tokens debug s s' p) :
    Ends tokens
      (do
        expect debug .null
        comparisonLoop debug s e had)
      (do
        expect debug .null
        comparisonLoop debug s' e had) q fun _ r => p.Forward r := by
  apply ends_expect hon (by simp)
  intro r hr hon'
  have hpr := hpq.trans hr
  apply ((ih r hon' hpr.left_lt).comparisonLoop e had).mono
  intro _ t ht
  exact (hpr.trans_forward ht).toForward

theorem ends_comparisonLoop (hp : p.On tokens) (ih : EndBelow tokens debug s s' p)
    (left : Expression) (had : Bool) : Ends tokens (comparisonLoop debug s left had)
      (comparisonLoop debug s' left had) p fun _ q => p.Forward q := by
  rw [comparisonLoop.eq_1 debug s, comparisonLoop.eq_1 debug s']
  apply ends_peek
  cases hop : comparisonOp p.peek with
  | some op =>
    have hpeek := comparisonOp_ne_eof hop
    cases had with
    | true => exact ends_fail hp _
    | false => exact ends_comparisonStep hp ih hpeek
  | none =>
    cases hpeek : p.peek with
    | is =>
      apply ends_advance hp (by simp [hpeek])
      intro q hq hon
      apply ends_match hon (by simp)
      · intro r hr hon'
        exact ends_comparisonNull _ (hq.trans hr) hon' ih
      · intro _
        exact ends_comparisonNull _ hq hon ih
    | in_ => exact ends_comparisonStep hp ih (by simp [hpeek])
    | like => exact ends_comparisonStep hp ih (by simp [hpeek])
    | _ => exact .pure (.refl p)

theorem ends_moreItems (hp : p.On tokens) (ih : EndBelow tokens debug s s' p)
    (items : List Expression) : Ends tokens (moreItems debug s items) (moreItems debug s' items) p
      fun _ q => p.Forward q := by
  rw [moreItems, moreItems]
  apply ends_match hp (by simp)
  · intro q hq hon
    apply ((ih q hon hq.left_lt).chain .or).read hon
    intro item r hr hon'
    have hpr := hq.trans hr
    apply ((ih r hon' hpr.left_lt).moreItems (items ++ [item])).mono
    intro _ t ht
    exact (hpr.trans_forward ht).toForward
  · intro _
    exact .pure (.refl p)

theorem ends_moreEntries (hp : p.On tokens) (ih : EndBelow tokens debug s s' p)
    (entries : List (String × Expression)) : Ends tokens (moreEntries debug s entries)
      (moreEntries debug s' entries) p fun _ q => p.Forward q := by
  rw [moreEntries, moreEntries]
  apply ends_match hp (by simp)
  · intro q hq hon
    apply (ends_ident hon).read hon
    intro key r hr hon'
    apply ends_expect hon' (by simp)
    intro t ht hon''
    have hpt := (hq.trans hr).trans ht
    apply ((ih t hon'' hpt.left_lt).chain .or).read hon''
    intro value u hu hon'''
    have hpu := hpt.trans hu
    apply ((ih u hon''' hpu.left_lt).moreEntries (entries ++ [(key, value)])).mono
    intro _ v hv
    exact (hpu.trans_forward hv).toForward
  · intro _
    exact .pure (.refl p)

theorem ends_whenLoop (hp : p.On tokens) (ih : EndBelow tokens debug s s' p)
    (clauses : List (Expression × Expression)) : Ends tokens (whenLoop debug s clauses)
      (whenLoop debug s' clauses) p fun _ q => p.Forward q := by
  rw [whenLoop, whenLoop]
  apply ends_match hp (by simp)
  · intro q hq hon
    apply ((ih q hon hq.left_lt).chain .or).read hon
    intro condition r hr hon'
    apply ends_expect hon' (by simp)
    intro t ht hon''
    have hpt := (hq.trans hr).trans ht
    apply ((ih t hon'' hpt.left_lt).chain .or).read hon''
    intro result u hu hon'''
    have hpu := hpt.trans hu
    apply ((ih u hon''' hpu.left_lt).whenLoop (clauses ++ [(condition, result)])).mono
    intro _ v hv
    exact (hpu.trans_forward hv).toForward
  · intro _
    exact .pure (.refl p)

/-! ## Primaries -/

theorem ends_parseCallOrName (hp : p.On tokens) (ih : EndBelow tokens debug s s' p) (name : String)
    (hpeek : p.peek ≠ .eof) : Ends tokens (parseCallOrName debug s name)
      (parseCallOrName debug s' name) p fun _ q => p.Progress q := by
  rw [parseCallOrName, parseCallOrName]
  apply ends_advance hp hpeek
  intro q hq hon
  apply ends_peek
  apply EndAlike.ite
  · intro hparen
    apply ends_advance hon (by simp [hparen])
    intro r hr hon'
    have hpr := hq.trans hr
    apply ((ih r hon' hpr.left_lt).items .rParen).pass hon'
    intro args t ht hon''
    apply ends_expect hon'' (by simp)
    intro u hu _
    exact .pure ((hpr.trans_forward ht).trans hu)
  · intro _
    exact .pure hq

theorem ends_parseAggregate (hp : p.On tokens) (ih : EndBelow tokens debug s s' p)
    (function : AggregateFunction) (hpeek : p.peek ≠ .eof) : Ends tokens
      (parseAggregate debug s function) (parseAggregate debug s' function) p
        fun _ q => p.Progress q := by
  rw [parseAggregate, parseAggregate]
  apply ends_advance hp hpeek
  intro q hq hon
  apply ends_expect hon (by simp)
  intro r hr hon'
  have hpr := hq.trans hr
  have hclose : ∀ (e : Expression) (t : Parser), p.Progress t → t.On tokens → Ends tokens
      (do
        expect debug .rParen
        return e)
      (do
        expect debug .rParen
        return e) t fun _ u => p.Progress u := by
    intro e t ht hont
    apply ends_expect hont (by simp)
    intro u hu _
    exact .pure (ht.trans hu)
  have harg : ∀ (distinct : Bool) (t : Parser), p.Progress t → t.On tokens → Ends tokens
      (do
        if (← peekToken) ≠ .rParen then
          let arg ← parseChain debug s .or
          expect debug .rParen
          return Expression.aggregate function distinct (some arg)
        else
          expect debug .rParen
          return Expression.aggregate function distinct none)
      (do
        if (← peekToken) ≠ .rParen then
          let arg ← parseChain debug s' .or
          expect debug .rParen
          return Expression.aggregate function distinct (some arg)
        else
          expect debug .rParen
          return Expression.aggregate function distinct none) t fun _ u => p.Progress u := by
    intro distinct t ht hont
    apply ends_peek
    apply EndAlike.ite
    · intro _
      apply ((ih t hont ht.left_lt).chain .or).read hont
      intro arg u hu honu
      exact hclose _ u (ht.trans hu) honu
    · intro _
      exact hclose _ t ht hont
  apply ends_match hon' (by simp)
  · intro t ht hon''
    exact hclose _ t (hpr.trans ht) hon''
  · intro _
    apply ends_match hon' (by simp)
    · intro t ht hon''
      exact harg true t (hpr.trans ht) hon''
    · intro _
      exact harg false r hpr hon'

theorem ends_parseCaseArms (hp : p.On tokens) (ih : EndBelow tokens debug s s' p)
    (operand : Option Expression) : Ends tokens (parseCaseArms debug s operand)
      (parseCaseArms debug s' operand) p fun _ q => p.Progress q := by
  rw [parseCaseArms, parseCaseArms]
  apply (ends_whenLoop hp ih []).pass hp
  intro clauses q hq hon
  apply ends_match hon (by simp)
  · intro r hr hon'
    have hpr := hq.trans_progress hr
    apply ((ih r hon' hpr.left_lt).chain .or).read hon'
    intro result t ht hon''
    apply ends_expect hon'' (by simp)
    intro u hu _
    exact .pure ((hpr.trans ht).trans hu)
  · intro _
    apply ends_expect hon (by simp)
    intro u hu _
    exact .pure (hq.trans_progress hu)

theorem ends_parseCaseExpression (hp : p.On tokens) (ih : EndBelow tokens debug s s' p) :
    Ends tokens (parseCaseExpression debug s) (parseCaseExpression debug s') p
      fun _ q => p.Progress q := by
  rw [parseCaseExpression, parseCaseExpression]
  apply ends_expect hp (by simp)
  intro q hq hon
  apply ends_peek
  apply EndAlike.ite
  · intro _
    apply ((ih q hon hq.left_lt).chain .or).read hon
    intro operand r hr hon'
    have hpr := hq.trans hr
    apply ((ih r hon' hpr.left_lt).caseArms (some operand)).mono
    intro _ t ht
    exact hpr.trans ht
  · intro _
    apply ((ih q hon hq.left_lt).caseArms none).mono
    intro _ t ht
    exact hq.trans ht

theorem literalOf_ne_eof {t : Token} {lit : Literal} (h : literalOf t = some lit) : t ≠ .eof := by
  rintro rfl
  cases h

theorem aggregateOf_ne_eof {t : Token} {function : AggregateFunction}
    (h : aggregateOf t = some function) : t ≠ .eof := by
  rintro rfl
  cases h

/-- A token that is an expression of its own. -/
theorem ends_leaf (hp : p.On tokens) (hpeek : p.peek ≠ .eof) (e : Expression) :
    Ends tokens
      (do
        advance
        return e)
      (do
        advance
        return e) p fun _ q => p.Progress q := by
  apply ends_advance hp hpeek
  intro q hq _
  exact .pure hq

theorem ends_parsePrimary (hp : p.On tokens) (ih : EndBelow tokens debug s s' p)
    (hs : NestedEnd tokens s s' p) : Ends tokens (parsePrimary debug s) (parsePrimary debug s') p
      fun _ q => p.Progress q := by
  rw [parsePrimary, parsePrimary]
  apply ends_peek
  cases hlit : literalOf p.peek with
  | some lit => exact ends_leaf hp (literalOf_ne_eof hlit) _
  | none =>
    cases hagg : aggregateOf p.peek with
    | some function =>
      have hpeek := aggregateOf_ne_eof hagg
      apply ends_get
      by_cases hparen : p.peekAt 1 = some .lParen
      · simp only [hparen, decide_true, if_true]
        exact ends_parseAggregate hp ih function hpeek
      · simp only [hparen, decide_false]
        exact ends_leaf hp hpeek _
    | none =>
      cases hpeek : p.peek with
      | parameter name => exact ends_leaf hp (by simp [hpeek]) _
      | lParen =>
        apply ends_enter hp
        apply ends_advance hp.deeper (by rw [show p.deeper.peek = p.peek from rfl, hpeek]; simp)
        intro q hq hon
        apply ((ih q hon hq.left_lt).chain .or).read hon
        intro e r hr hon'
        apply ends_expect hon' (by simp)
        intro t ht _
        apply ends_exit ((hq.trans hr).trans ht)
        intro u hu
        exact .pure hu
      | lBracket =>
        apply ends_advance hp (by simp [hpeek])
        intro q hq hon
        apply ((ih q hon hq.left_lt).items .rBracket).pass hon
        intro items r hr hon'
        apply ends_expect hon' (by simp)
        intro t ht _
        exact .pure ((hq.trans_forward hr).trans ht)
      | lBrace =>
        apply ends_advance hp (by simp [hpeek])
        intro q hq hon
        apply (ih q hon hq.left_lt).entries.pass hon
        intro entries r hr hon'
        apply ends_expect hon' (by simp)
        intro t ht _
        exact .pure ((hq.trans_forward hr).trans ht)
      | case => exact ends_parseCaseExpression hp ih
      | exists_ =>
        apply ends_advance hp (by simp [hpeek])
        intro q hq hon
        apply ends_expect hon (by simp)
        intro r hr hon'
        have hpr := hq.trans hr
        apply (hs r hon' hpr.left_lt).read hon'
        intro _ t ht hon''
        apply ends_expect hon'' (by simp)
        intro u hu _
        exact .pure ((hpr.trans ht).trans hu)
      | type => exact ends_parseCallOrName hp ih _ (by simp [hpeek])
      | ident name => exact ends_parseCallOrName hp ih _ (by simp [hpeek])
      | star => exact ends_leaf hp (by simp [hpeek]) _
      | _ => exact ends_fail hp _

/-! ## Levels -/

theorem ends_parsePostfixExpr (hp : p.On tokens) (ih : EndBelow tokens debug s s' p)
    (hs : NestedEnd tokens s s' p) : Ends tokens (parsePostfixExpr debug s)
      (parsePostfixExpr debug s') p fun _ q => p.Progress q := by
  rw [parsePostfixExpr, parsePostfixExpr]
  apply (ends_parsePrimary hp ih hs).read hp
  intro e q hq hon
  apply ((ih q hon hq.left_lt).postfixLoop e).mono
  intro _ r hr
  exact hq.trans_forward hr

/-- A sign or `NOT`: the operand is read one level deeper. -/
theorem ends_nestedOperand {x y : ParseM Expression} (make : Expression → Expression)
    (hp : p.On tokens) (hpeek : p.peek ≠ .eof)
    (h : ∀ q, q.On tokens → q.left < p.left → Ends tokens x y q fun _ r => q.Progress r) :
    Ends tokens
      (do
        advance
        enterDepth
        let operand ← x
        exitDepth
        return make operand)
      (do
        advance
        enterDepth
        let operand ← y
        exitDepth
        return make operand) p fun _ q => p.Progress q := by
  apply ends_advance hp hpeek
  intro q hq hon
  apply ends_enter hon
  apply (h q.deeper hon.deeper hq.left_lt).read hon.deeper
  intro operand r hr _
  apply ends_exit hr
  intro t ht
  exact .pure (hq.trans ht)

theorem ends_parseUnaryExpr (hp : p.On tokens) (ih : EndBelow tokens debug s s' p)
    (hs : NestedEnd tokens s s' p) : Ends tokens (parseUnaryExpr debug s) (parseUnaryExpr debug s') p
      fun _ q => p.Progress q := by
  rw [parseUnaryExpr.eq_1 debug s, parseUnaryExpr.eq_1 debug s']
  apply ends_peek
  cases hpeek : p.peek with
  | minus =>
    exact ends_nestedOperand (.unaryOp .neg) hp (by simp [hpeek]) fun q hon hlt => (ih q hon hlt).unary
  | plus =>
    exact ends_nestedOperand (.unaryOp .pos) hp (by simp [hpeek]) fun q hon hlt => (ih q hon hlt).unary
  | _ => exact ends_parsePostfixExpr hp ih hs

/-- A chain ends where its operands do. -/
theorem ends_parseChain {level : ChainLevel} (hp : p.On tokens) (ih : EndBelow tokens debug s s' p)
    (h : Ends tokens (parseOperand debug s level) (parseOperand debug s' level) p
      fun _ q => p.Progress q) :
    Ends tokens (parseChain debug s level) (parseChain debug s' level) p fun _ q => p.Progress q := by
  rw [parseChain, parseChain]
  apply h.read hp
  intro left q hq hon
  apply ((ih q hon hq.left_lt).chainLoop level left).mono
  intro _ r hr
  exact hq.trans_forward hr

theorem ends_parseNotExpr (hp : p.On tokens) (ih : EndBelow tokens debug s s' p)
    (hconcat : Ends tokens (parseChain debug s .concat) (parseChain debug s' .concat) p
      fun _ q => p.Progress q) :
    Ends tokens (parseNotExpr debug s) (parseNotExpr debug s') p fun _ q => p.Progress q := by
  rw [parseNotExpr.eq_1 debug s, parseNotExpr.eq_1 debug s']
  apply ends_peek
  apply EndAlike.ite
  · intro hnot
    exact ends_nestedOperand (.unaryOp .not) hp (by simp [hnot]) fun q hon hlt =>
      (ih q hon hlt).notExpr
  · intro _
    rw [parseComparisonExpr, parseComparisonExpr]
    apply hconcat.read hp
    intro left q hq hon
    apply ((ih q hon hq.left_lt).comparisonLoop left false).mono
    intro _ r hr
    exact hq.trans_forward hr

theorem ends_parseOperand (hp : p.On tokens) (ih : EndBelow tokens debug s s' p)
    (hs : NestedEnd tokens s s' p) (level : ChainLevel) : Ends tokens (parseOperand debug s level)
      (parseOperand debug s' level) p fun _ q => p.Progress q := by
  have hmul : Ends tokens (parseOperand debug s .multiplication)
      (parseOperand debug s' .multiplication) p fun _ q => p.Progress q := by
    rw [parseOperand, parseOperand]
    exact ends_parseUnaryExpr hp ih hs
  have hadd : Ends tokens (parseOperand debug s .addition) (parseOperand debug s' .addition) p
      fun _ q => p.Progress q := by
    rw [parseOperand, parseOperand]
    exact ends_parseChain hp ih hmul
  have hconcat : Ends tokens (parseOperand debug s .concat) (parseOperand debug s' .concat) p
      fun _ q => p.Progress q := by
    rw [parseOperand, parseOperand]
    exact ends_parseChain hp ih hadd
  have hand : Ends tokens (parseOperand debug s .and) (parseOperand debug s' .and) p
      fun _ q => p.Progress q := by
    rw [parseOperand, parseOperand]
    exact ends_parseNotExpr hp ih (ends_parseChain hp ih hconcat)
  have hxor : Ends tokens (parseOperand debug s .xor) (parseOperand debug s' .xor) p
      fun _ q => p.Progress q := by
    rw [parseOperand, parseOperand]
    exact ends_parseChain hp ih hand
  have hor : Ends tokens (parseOperand debug s .or) (parseOperand debug s' .or) p
      fun _ q => p.Progress q := by
    rw [parseOperand, parseOperand]
    exact ends_parseChain hp ih hxor
  cases level with
  | or => exact hor
  | xor => exact hxor
  | and => exact hand
  | concat => exact hconcat
  | addition => exact hadd
  | multiplication => exact hmul

theorem ends_parseItems (hp : p.On tokens) (ih : EndBelow tokens debug s s' p)
    (hs : NestedEnd tokens s s' p) (close : Token) : Ends tokens (parseItems debug s close)
      (parseItems debug s' close) p fun _ q => p.Forward q := by
  rw [parseItems, parseItems]
  apply ends_peek
  apply EndAlike.ite
  · intro _
    apply (ends_parseChain hp ih (ends_parseOperand hp ih hs .or)).read hp
    intro item q hq hon
    apply ((ih q hon hq.left_lt).moreItems [item]).mono
    intro _ r hr
    exact (hq.trans_forward hr).toForward
  · intro _
    exact .pure (.refl p)

theorem ends_parseEntries (hp : p.On tokens) (ih : EndBelow tokens debug s s' p) :
    Ends tokens (parseEntries debug s) (parseEntries debug s') p fun _ q => p.Forward q := by
  rw [parseEntries, parseEntries]
  apply ends_peek
  apply EndAlike.ite
  · intro _
    apply (ends_ident hp).read hp
    intro key q hq hon
    apply ends_expect hon (by simp)
    intro r hr hon'
    have hpr := hq.trans hr
    apply ((ih r hon' hpr.left_lt).chain .or).read hon'
    intro value t ht hon''
    have hpt := hpr.trans ht
    apply ((ih t hon'' hpt.left_lt).moreEntries [(key, value)]).mono
    intro _ u hu
    exact (hpt.trans_forward hu).toForward
  · intro _
    exact .pure (.refl p)

/-- Every parsing function of expressions ends, wherever the nested statements do. -/
theorem expressionsEnd (hp : p.On tokens)
    (hs : ∀ q, q.On tokens → q.left < p.left → Ends tokens s s' q fun _ r => q.Progress r) :
    ExpressionsEnd tokens debug s s' p := by
  induction hleft : p.left using Nat.strongRecOn generalizing p with
  | ind n ih =>
    have hbelow : EndBelow tokens debug s s' p := by
      intro q hon hlt
      apply ih q.left (by omega) hon _ rfl
      intro r honr hltr
      exact hs r honr (by omega)
    have hoperand := ends_parseOperand hp hbelow hs
    have hchain : ∀ level, Ends tokens (parseChain debug s level) (parseChain debug s' level) p
        fun _ q => p.Progress q :=
      fun level => ends_parseChain hp hbelow (hoperand level)
    exact {
      chain := hchain
      operand := hoperand
      chainLoop := ends_chainLoop hp hbelow
      notExpr := ends_parseNotExpr hp hbelow (hchain .concat)
      comparisonLoop := ends_comparisonLoop hp hbelow
      unary := ends_parseUnaryExpr hp hbelow hs
      postfixLoop := ends_postfixLoop hp hbelow
      items := ends_parseItems hp hbelow hs
      moreItems := ends_moreItems hp hbelow
      entries := ends_parseEntries hp hbelow
      moreEntries := ends_moreEntries hp hbelow
      caseArms := ends_parseCaseArms hp hbelow
      whenLoop := ends_whenLoop hp hbelow }

end Ends

end Synaptica.Gql
