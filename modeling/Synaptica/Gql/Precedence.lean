import Synaptica.Gql.ParserSteps
import Synaptica.Gql.Printing

/-!
# The levels of precedence

The parsing functions of the levels are one family here, `parserAt`, and what a level does once its
first operand is read is another, `goOn`. What is read on one level is read on every level below, as
long as nothing there goes on with it (`parserAt_of_lt`).
-/

namespace Synaptica.Gql

/-! ## Tokens that go on -/

/-- The level on which a token goes on with an expression that stands before it. -/
def Token.binding : Token → Option Nat
  | .or => some 0
  | .xor => some 1
  | .and => some 2
  | .eq | .neq | .lt | .gt | .le | .ge | .is | .in_ | .like => some 4
  | .doublePipe => some 5
  | .plus | .minus => some 6
  | .star | .slash | .percent => some 7
  | .dot => some 9
  | .lParen => some 11
  | _ => none

/-- No expression goes on with the token. -/
def Token.EndsExpression (t : Token) : Prop := t.binding = none

/-- Nothing on `level` or above goes on with `rest`. -/
def Stops (level : Nat) (rest : List Token) : Prop :=
  ∀ l, (rest.headD .eof).binding = some l → l < level

theorem Stops.mono {level level' : Nat} {rest : List Token} (h : Stops level rest)
    (hle : level ≤ level') : Stops level' rest :=
  fun l hl => Nat.lt_of_lt_of_le (h l hl) hle

theorem stops_cons {level l : Nat} {t : Token} {ts : List Token} (h : t.binding = some l)
    (hl : l < level) : Stops level (t :: ts) := by
  intro l' hl'
  rw [List.headD_cons, h] at hl'
  cases hl'
  exact hl

theorem stops_of_ends {t : Token} {ts : List Token} (h : t.binding = none) (level : Nat) :
    Stops level (t :: ts) := by
  intro l hl
  rw [List.headD_cons, h] at hl
  cases hl

theorem Stops.peek_ne {level l : Nat} {p : Parser} {rest : List Token} {t : Token}
    (h : Stops level rest) (hp : p.ahead = rest) (ht : t.binding = some l) (hl : level ≤ l) :
    p.peek ≠ t := by
  intro heq
  have hlt : l < level := h l (by rw [← hp, ← Parser.peek_eq_headD, heq, ht])
  omega

/-! ## Operators -/

def ChainLevel.level : ChainLevel → Nat
  | .or => 0
  | .xor => 1
  | .and => 2
  | .concat => 5
  | .addition => 6
  | .multiplication => 7

theorem ChainLevel.binding_of_op {level : ChainLevel} {t : Token} {op : BinaryOp}
    (h : level.op t = some op) : t.binding = some level.level := by
  cases level <;> cases t <;> first | rfl | cases h

theorem ChainLevel.op_token {level : ChainLevel} {op : BinaryOp} (h : op.level = level.level) :
    level.op op.token = some op := by
  cases level <;> cases op <;> first | rfl | cases h

theorem comparisonOp_token {op : BinaryOp} (h : op.level = 4) : comparisonOp op.token = some op := by
  cases op <;> first | rfl | cases h

theorem BinaryOp.binding_token (op : BinaryOp) : op.token.binding = some op.level := by
  cases op <;> rfl

theorem BinaryOp.token_ne_eof (op : BinaryOp) : op.token ≠ .eof := by cases op <;> nofun

/-- An operator that compares nothing belongs to a chain. -/
theorem BinaryOp.exists_chain {op : BinaryOp} (h : op.level ≠ 4) :
    ∃ level : ChainLevel, op.level = level.level := by
  cases op with
  | or => exact ⟨.or, rfl⟩
  | xor => exact ⟨.xor, rfl⟩
  | and => exact ⟨.and, rfl⟩
  | concat => exact ⟨.concat, rfl⟩
  | add => exact ⟨.addition, rfl⟩
  | sub => exact ⟨.addition, rfl⟩
  | mul => exact ⟨.multiplication, rfl⟩
  | div => exact ⟨.multiplication, rfl⟩
  | mod => exact ⟨.multiplication, rfl⟩
  | eq => exact absurd rfl h
  | neq => exact absurd rfl h
  | lt => exact absurd rfl h
  | gt => exact absurd rfl h
  | le => exact absurd rfl h
  | ge => exact absurd rfl h

namespace Expression

theorem level_le (e : Expression) : e.level ≤ 10 := by
  cases e with
  | binaryOp left op right => cases op <;> simp [level, BinaryOp.level]
  | unaryOp op operand => cases op <;> simp [level, UnaryOp.level]
  | _ => simp [level]

/-- Only what stands on the level of comparisons ends a chain of them. -/
theorem chained_of_level_ne {e : Expression} (h : e.level ≠ 4) : e.chained = false := by
  cases e with
  | binaryOp left op right => simpa [chained, level] using h
  | isNull inner => exact absurd rfl h
  | isNotNull inner => exact absurd rfl h
  | inList operand right => exact absurd rfl h
  | like operand pattern => exact absurd rfl h
  | _ => rfl

end Expression

/-! ## The levels of the parser -/

section Levels

variable (debug : Token → String) (statement : ParseM GqlStatement)

/-- The parser of a level. -/
def parserAt (level : Nat) : ParseM Expression :=
  match level with
  | 0 => parseChain debug statement .or
  | 1 => parseChain debug statement .xor
  | 2 => parseChain debug statement .and
  | 3 => parseNotExpr debug statement
  | 4 => parseComparisonExpr debug statement
  | 5 => parseChain debug statement .concat
  | 6 => parseChain debug statement .addition
  | 7 => parseChain debug statement .multiplication
  | 8 => parseUnaryExpr debug statement
  | 9 => parsePostfixExpr debug statement
  | _ => parsePrimary debug statement

/-- What the parser of a level does when an expression stands before. -/
def goOn (level : Nat) (e : Expression) (hadComparison : Bool) : ParseM Expression :=
  match level with
  | 0 => chainLoop debug statement .or e
  | 1 => chainLoop debug statement .xor e
  | 2 => chainLoop debug statement .and e
  | 4 => comparisonLoop debug statement e hadComparison
  | 5 => chainLoop debug statement .concat e
  | 6 => chainLoop debug statement .addition e
  | 7 => chainLoop debug statement .multiplication e
  | 9 => postfixLoop debug statement e
  | _ => pure e

variable {debug statement}

theorem parserAt_chain (level : ChainLevel) :
    parserAt debug statement level.level = parseChain debug statement level := by
  cases level <;> rfl

theorem goOn_chain (level : ChainLevel) (e : Expression) (had : Bool) :
    goOn debug statement level.level e had = chainLoop debug statement level e := by
  cases level <;> rfl

theorem parseOperand_eq (level : ChainLevel) :
    parseOperand debug statement level = parserAt debug statement (level.level + 1) := by
  cases level <;> rw [parseOperand] <;> rfl

theorem goOn_had {level : Nat} (h : level ≠ 4) (e : Expression) (had had' : Bool) :
    goOn debug statement level e had = goOn debug statement level e had' := by
  unfold goOn
  split <;> first | rfl | exact absurd rfl h

variable {p q : Parser} {e : Expression} {rest : List Token}

theorem chainLoop_stops (level : ChainLevel) (hstop : Stops level.level p.ahead) :
    chainLoop debug statement level e p = some (.ok (e, p)) := by
  rw [chainLoop, bind_of (x := peekToken) _ rfl]
  have hop : level.op p.peek = none := by
    cases h : level.op p.peek with
    | none => rfl
    | some op => exact absurd rfl (hstop.peek_ne rfl (ChainLevel.binding_of_op h) (le_refl _))
  rw [hop]
  rfl

theorem comparisonLoop_stops {had : Bool} (hstop : Stops 4 p.ahead) :
    comparisonLoop debug statement e had p = some (.ok (e, p)) := by
  have hne : ∀ t, t.binding = some 4 → p.peek ≠ t := fun t ht => hstop.peek_ne rfl ht (le_refl _)
  rw [comparisonLoop, bind_of (x := peekToken) _ rfl]
  have hop : comparisonOp p.peek = none := by
    unfold comparisonOp
    split <;> first | rfl | exact absurd ‹_› (hne _ rfl)
  rw [hop]
  generalize p.peek = t at hne
  cases t <;> first | rfl | exact absurd rfl (hne _ rfl)

theorem postfixLoop_stops (hstop : Stops 9 p.ahead) :
    postfixLoop debug statement e p = some (.ok (e, p)) := by
  rw [postfixLoop, bind_of (x := peekToken) _ rfl, if_neg (hstop.peek_ne rfl rfl (le_refl _))]
  rfl

/-- Where nothing goes on, a level answers what it has. -/
theorem goOn_stops {level : Nat} {had : Bool} (hstop : Stops level p.ahead) :
    goOn debug statement level e had p = some (.ok (e, p)) := by
  unfold goOn
  split
  · exact chainLoop_stops .or hstop
  · exact chainLoop_stops .xor hstop
  · exact chainLoop_stops .and hstop
  · exact comparisonLoop_stops hstop
  · exact chainLoop_stops .concat hstop
  · exact chainLoop_stops .addition hstop
  · exact chainLoop_stops .multiplication hstop
  · exact postfixLoop_stops hstop
  · rfl

/-- The first token does not make a level its own prefix operator: `NOT` on level 3, a sign on level 8. -/
def Passes (level : Nat) (t : Token) : Prop :=
  (t = .not → level ≤ 3) ∧ (t = .minus ∨ t = .plus → level ≤ 8)

/-- A level reads its first operand on the next one. -/
theorem parserAt_succ {level : Nat} (hlevel : level < 10) (hpass : Passes (level + 1) p.peek)
    (h : parserAt debug statement (level + 1) p = some (.ok (e, q))) :
    parserAt debug statement level p = goOn debug statement level e false q := by
  have hchain : ∀ c : ChainLevel, parserAt debug statement (c.level + 1) p = some (.ok (e, q)) →
      parseChain debug statement c p = chainLoop debug statement c e q := by
    intro c hc
    rw [parseChain, parseOperand_eq, bind_of _ hc]
  match level, hlevel with
  | 0, _ => exact hchain .or h
  | 1, _ => exact hchain .xor h
  | 2, _ => exact hchain .and h
  | 3, _ =>
    have hnot : p.peek ≠ .not := fun hp => absurd (hpass.1 hp) (by omega)
    show parseNotExpr debug statement p = _
    rw [parseNotExpr, bind_of (x := peekToken) _ rfl, if_neg hnot]
    exact h
  | 4, _ =>
    have hoperand : parseChain debug statement .concat p = some (.ok (e, q)) := h
    show parseComparisonExpr debug statement p = _
    rw [parseComparisonExpr, bind_of _ hoperand]
    rfl
  | 5, _ => exact hchain .concat h
  | 6, _ => exact hchain .addition h
  | 7, _ => exact hchain .multiplication h
  | 8, _ =>
    have hminus : p.peek ≠ .minus := fun hp => absurd (hpass.2 (.inl hp)) (by omega)
    have hplus : p.peek ≠ .plus := fun hp => absurd (hpass.2 (.inr hp)) (by omega)
    show parseUnaryExpr debug statement p = _
    rw [parseUnaryExpr, bind_of (x := peekToken) _ rfl]
    generalize p.peek = t at hminus hplus
    cases t with
    | minus => exact absurd rfl hminus
    | plus => exact absurd rfl hplus
    | _ => exact h
  | 9, _ =>
    have hoperand : parsePrimary debug statement p = some (.ok (e, q)) := h
    show parsePostfixExpr debug statement p = _
    rw [parsePostfixExpr, bind_of _ hoperand]
    rfl

theorem Passes.mono {level level' : Nat} {t : Token} (h : Passes level' t) (hle : level ≤ level') :
    Passes level t :=
  ⟨fun ht => le_trans hle (h.1 ht), fun ht => le_trans hle (h.2 ht)⟩

/-- What a level reads, each level below goes on with. -/
theorem parserAt_of_lt {level level' : Nat} (hlt : level < level') (hle : level' ≤ 10)
    (hpass : Passes level' p.peek) (hstop : Stops (level + 1) q.ahead)
    (h : parserAt debug statement level' p = some (.ok (e, q))) :
    parserAt debug statement level p = goOn debug statement level e false q := by
  induction level', hlt using Nat.le_induction with
  | base => exact parserAt_succ (by omega) hpass h
  | succ n hn ih =>
    apply ih (by omega) (hpass.mono (Nat.le_succ n))
    rw [parserAt_succ (by omega) hpass h]
    exact goOn_stops (hstop.mono hn)

end Levels

end Synaptica.Gql
