import Synaptica.Gql.Parser

/-!
# Steps of the parser

What the helpers of the parser do to the tokens ahead. `bind_of` peels one step off a parsing function
that has answered; each helper has its own form of it.
-/

namespace Synaptica.Gql

namespace Parser

/-- The parser `n` tokens further. -/
def skip (p : Parser) (n : Nat) : Parser := { p with pos := p.pos + n }

/-- The parser inside one parenthesis, `NOT` or sign more. -/
def deeper (p : Parser) : Parser := { p with depth := p.depth + 1 }

/-- The tokens that are still to be read. -/
def ahead (p : Parser) : List Token := (p.tokens.drop p.pos).map SpannedToken.token

variable {p : Parser} {t : Token} {ts rest : List Token}

@[simp] theorem skip_zero : p.skip 0 = p := rfl

@[simp] theorem skip_skip (m n : Nat) : (p.skip m).skip n = p.skip (m + n) := by
  simp [skip, Nat.add_assoc]

@[simp] theorem depth_skip (n : Nat) : (p.skip n).depth = p.depth := rfl

@[simp] theorem depth_deeper : p.deeper.depth = p.depth + 1 := rfl

@[simp] theorem ahead_deeper : p.deeper.ahead = p.ahead := rfl

theorem ahead_deeper_skip (n : Nat) : (p.deeper.skip n).ahead = (p.skip n).ahead := rfl

theorem ahead_skip (h : p.ahead = ts ++ rest) : (p.skip ts.length).ahead = rest := by
  have hdrop : (p.skip ts.length).ahead = p.ahead.drop ts.length := by
    simp [ahead, skip, List.map_drop]
  rw [hdrop, h, List.drop_left]

theorem ahead_skip_one (h : p.ahead = t :: rest) : (p.skip 1).ahead = rest :=
  @ahead_skip _ [t] _ h

theorem peek_eq_headD : p.peek = p.ahead.headD .eof := by
  rw [ahead, List.headD_eq_head?_getD, List.head?_map, List.head?_drop, peek]
  cases p.tokens[p.pos]? <;> rfl

theorem peek_of_ahead (h : p.ahead = t :: rest) : p.peek = t := by
  rw [peek_eq_headD, h]
  rfl

theorem peekAt_one_of_ahead (h : p.ahead = t :: rest) : p.peekAt 1 = rest.head? := by
  rw [← ahead_skip_one h, ahead, List.head?_map, List.head?_drop]
  rfl

end Parser

section Steps

variable {α β : Type} {p p' : Parser} {t expected : Token} {rest : List Token}

theorem bind_of {x : ParseM α} {a : α} (f : α → ParseM β) (h : x p = some (.ok (a, p'))) :
    (x >>= f) p = f a p' := by
  simp [bind, StateT.bind, ExceptT.bind, ExceptT.mk, ExceptT.bindCont, h]

theorem get_bind (f : Parser → ParseM β) : ((get : ParseM Parser) >>= f) p = f p p := bind_of f rfl

theorem pure_skip {a : α} {m n : Nat} (h : m = n) :
    (pure a : ParseM α) (p.skip m) = some (.ok (a, p.skip n)) := by
  rw [h]
  rfl

theorem peekToken_bind (f : Token → ParseM β) (h : p.ahead = t :: rest) :
    (peekToken >>= f) p = f t p := by
  apply bind_of
  rw [← Parser.peek_of_ahead h]
  rfl

theorem advance_bind (f : Unit → ParseM β) (h : p.ahead = t :: rest) (ht : t ≠ .eof) :
    (advance >>= f) p = f () (p.skip 1) := by
  apply bind_of
  have hpeek : p.peek ≠ .eof := by rwa [Parser.peek_of_ahead h]
  have hstep : advance p = some (.ok ((), if p.peek = .eof then p else p.skip 1)) := rfl
  rw [hstep, if_neg hpeek]

theorem matchToken_bind (f : Bool → ParseM β) (h : p.ahead = t :: rest) (ht : t ≠ .eof) :
    (matchToken t >>= f) p = f true (p.skip 1) := by
  apply bind_of
  rw [matchToken, peekToken_bind _ h, if_pos rfl, advance_bind _ h ht]
  rfl

theorem matchToken_bind_of_ne (f : Bool → ParseM β) (h : p.peek ≠ expected) :
    (matchToken expected >>= f) p = f false p := by
  apply bind_of
  rw [matchToken, bind_of (x := peekToken) _ rfl, if_neg h]
  rfl

theorem expect_bind (debug : Token → String) (f : Unit → ParseM β) (h : p.ahead = t :: rest)
    (ht : t ≠ .eof) : (expect debug t >>= f) p = f () (p.skip 1) := by
  have hadvance : advance p = some (.ok ((), if p.peek = .eof then p else p.skip 1)) := rfl
  apply bind_of
  rw [expect, peekToken_bind _ h, if_pos rfl, hadvance, if_neg]
  rwa [Parser.peek_of_ahead h]

theorem enterDepth_bind (f : Unit → ParseM β) (h : p.depth < maxExprDepth) :
    (enterDepth >>= f) p = f () p.deeper := by
  apply bind_of
  have hdepth : ¬ p.deeper.depth > maxExprDepth := by
    rw [Parser.depth_deeper]
    omega
  have hstep : enterDepth p = (if p.deeper.depth > maxExprDepth
      then parseFail "expression nesting depth exceeded" else pure ()) p.deeper := rfl
  rw [hstep, if_neg hdepth]
  rfl

theorem exitDepth_bind (f : Unit → ParseM β) (n : Nat) :
    (exitDepth >>= f) (p.deeper.skip n) = f () (p.skip n) := rfl

end Steps

end Synaptica.Gql
