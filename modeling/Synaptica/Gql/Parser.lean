import Synaptica.Gql.Ast
import Synaptica.Gql.Lexer

/-!
# The parser of expressions

`synaptica_gql::parser`, as far as expressions go: one function for each level of precedence, each of
which reads operands on the next level and goes on as long as an operator of its own follows. A parsing
function may fail, and nothing says in advance that it ends: it answers `none` where it does not.
`EXISTS` holds a statement, which `statement` reads.

A recursive call is written `by apply f`: the term is the call of `f`, without the place in the file that
Lean attaches to a call in term mode.
-/

namespace Synaptica.Gql

structure ParseError where
  message : String
  line : Nat
  column : Nat
  deriving DecidableEq, Repr

/-- How deep parentheses, `NOT` and signs may be nested. -/
def maxExprDepth : Nat := 256

structure Parser where
  tokens : List SpannedToken
  pos : Nat
  depth : Nat
  deriving DecidableEq, Repr

/-- A function of the parser: it may fail, and it may not end. -/
abbrev ParseM : Type → Type := StateT Parser (ExceptT ParseError Option)

namespace Parser

/-! ## Helpers -/

def peek (p : Parser) : Token := (p.tokens[p.pos]?).elim .eof SpannedToken.token

def peekSpan (p : Parser) : Span := (p.tokens[p.pos]?).elim ⟨0, 0, 0⟩ SpannedToken.span

def peekAt (p : Parser) (offset : Nat) : Option Token :=
  (p.tokens[p.pos + offset]?).map SpannedToken.token

def error (p : Parser) (message : String) : ParseError := ⟨message, p.peekSpan.line, p.peekSpan.column⟩

end Parser

def peekToken : ParseM Token := do return (← get).peek

def lookaheadIsLParen : ParseM Bool := do return (← get).peekAt 1 = some .lParen

def parseFail {α : Type} (message : String) : ParseM α := do throw ((← get).error message)

def advance : ParseM Unit := modify fun p => if p.peek = .eof then p else { p with pos := p.pos + 1 }

def matchToken (expected : Token) : ParseM Bool := do
  if (← peekToken) = expected then
    advance
    return true
  else return false

/-- An error leaves the parser one level deeper; parsing ends there. -/
def enterDepth : ParseM Unit := do
  modify fun p => { p with depth := p.depth + 1 }
  if (← get).depth > maxExprDepth then parseFail "expression nesting depth exceeded"

def exitDepth : ParseM Unit := modify fun p => { p with depth := p.depth - 1 }

section Debug

-- How a token is shown in a message.
variable (debug : Token → String)

def expect (expected : Token) : ParseM Unit := do
  let t ← peekToken
  if t = expected then advance
  else parseFail ("expected " ++ debug expected ++ ", found " ++ debug t)

def keywordToString : Token → String
  | .type => "type"
  | .count => "count"
  | .sum => "sum"
  | .avg => "avg"
  | .min => "min"
  | .max => "max"
  | .collect => "collect"
  | t => (debug t).toLower

def expectIdent : ParseM String := do
  match ← peekToken with
  | .ident name =>
    advance
    return name
  | t => parseFail ("expected identifier, found " ++ debug t)

/-- The keywords that may stand for a property, and the name they stand for. -/
def propertyKeywords : List (Token × String) :=
  [(.match_, "match"), (.return_, "return"), (.where_, "where"), (.insert, "insert"),
    (.create, "create"), (.set, "set"), (.delete, "delete"), (.detach, "detach"),
    (.remove, "remove"), (.drop, "drop"), (.with_, "with"), (.order, "order"), (.by_, "by"),
    (.limit, "limit"), (.offset, "offset"), (.asc, "asc"), (.desc, "desc"),
    (.distinct, "distinct"), (.as, "as"), (.and, "and"), (.or, "or"), (.not, "not"),
    (.xor, "xor"), (.is, "is"), (.null, "null"), (.true_, "true"), (.false_, "false"),
    (.in_, "in"), (.exists_, "exists"), (.case, "case"), (.when, "when"), (.then_, "then"),
    (.else_, "else"), (.end_, "end"), (.union, "union"), (.all, "all"), (.optional, "optional"),
    (.call, "call"), (.yield, "yield"), (.like, "like"), (.node, "node"), (.edge, "edge"),
    (.graph, "graph"), (.type, "type"), (.group, "group"), (.having, "having"), (.let_, "let"),
    (.for_, "for"), (.filter, "filter"), (.count, "count"), (.sum, "sum"), (.avg, "avg"),
    (.min, "min"), (.max, "max"), (.collect, "collect"), (.path, "path"), (.cost, "cost"),
    (.from_, "from"), (.to, "to")]

def expectIdentOrKeyword : ParseM String := do
  match ← peekToken with
  | .ident name =>
    advance
    return name
  | t =>
    match propertyKeywords.lookup t with
    | some name =>
      advance
      return name
    | none => parseFail ("expected identifier, found " ++ debug t)

/-! ## Operators -/

/-- The levels that read a chain of binary operators from left to right. -/
inductive ChainLevel where
  | or | xor | and | concat | addition | multiplication
  deriving DecidableEq, Repr

def ChainLevel.op : ChainLevel → Token → Option BinaryOp
  | .or, .or => some .or
  | .xor, .xor => some .xor
  | .and, .and => some .and
  | .concat, .doublePipe => some .concat
  | .addition, .plus => some .add
  | .addition, .minus => some .sub
  | .multiplication, .star => some .mul
  | .multiplication, .slash => some .div
  | .multiplication, .percent => some .mod
  | _, _ => none

def comparisonOp : Token → Option BinaryOp
  | .eq => some .eq
  | .neq => some .neq
  | .lt => some .lt
  | .gt => some .gt
  | .le => some .le
  | .ge => some .ge
  | _ => none

/-- The literals of one token. -/
def literalOf : Token → Option Literal
  | .integerLit n => some (.integer n)
  | .floatLit n => some (.float n)
  | .stringLit s => some (.string s)
  | .true_ | .boolLit true => some (.bool true)
  | .false_ | .boolLit false => some (.bool false)
  | .null | .nullLit => some .null
  | _ => none

/-- The aggregate functions, which are names when no parenthesis follows. -/
def aggregateOf : Token → Option AggregateFunction
  | .count => some .count
  | .sum => some .sum
  | .avg => some .avg
  | .min => some .min
  | .max => some .max
  | .collect => some .collect
  | _ => none

/-! ## Expressions -/

-- The parser of statements, for `EXISTS`.
variable (statement : ParseM GqlStatement)

mutual

/-- `parse_or_expr`, `parse_xor_expr`, `parse_and_expr`, `parse_concat_expr`, `parse_addition_expr` and
`parse_multiplication_expr`. -/
def parseChain (level : ChainLevel) : ParseM Expression := do
  let left ← (by apply parseOperand : ChainLevel → ParseM Expression) level
  (by apply chainLoop : ChainLevel → Expression → ParseM Expression) level left
partial_fixpoint

/-- What stands between the operators of a chain. -/
def parseOperand (level : ChainLevel) : ParseM Expression :=
  match level with
  | .or => (by apply parseChain : ChainLevel → ParseM Expression) .xor
  | .xor => (by apply parseChain : ChainLevel → ParseM Expression) .and
  | .and => (by apply parseNotExpr : ParseM Expression)
  | .concat => (by apply parseChain : ChainLevel → ParseM Expression) .addition
  | .addition => (by apply parseChain : ChainLevel → ParseM Expression) .multiplication
  | .multiplication => (by apply parseUnaryExpr : ParseM Expression)
partial_fixpoint

def chainLoop (level : ChainLevel) (left : Expression) : ParseM Expression := do
  match level.op (← peekToken) with
  | some op =>
    advance
    let right ← (by apply parseOperand : ChainLevel → ParseM Expression) level
    (by apply chainLoop : ChainLevel → Expression → ParseM Expression)
      level (.binaryOp left op right)
  | none => return left
partial_fixpoint

def parseNotExpr : ParseM Expression := do
  if (← peekToken) = .not then
    advance
    enterDepth
    let operand ← (by apply parseNotExpr : ParseM Expression)
    exitDepth
    return .unaryOp .not operand
  else (by apply parseComparisonExpr : ParseM Expression)
partial_fixpoint

def parseComparisonExpr : ParseM Expression := do
  let left ← (by apply parseChain : ChainLevel → ParseM Expression) .concat
  (by apply comparisonLoop : Expression → Bool → ParseM Expression) left false
partial_fixpoint

def comparisonLoop (left : Expression) (hadComparison : Bool) : ParseM Expression := do
  let t ← peekToken
  match comparisonOp t with
  | some op =>
    if hadComparison then
      parseFail "chained comparison operators are not allowed; use AND to combine conditions"
    else
      advance
      let right ← (by apply parseChain : ChainLevel → ParseM Expression) .concat
      (by apply comparisonLoop : Expression → Bool → ParseM Expression)
        (.binaryOp left op right) true
  | none =>
    match t with
    | .is =>
      advance
      if ← matchToken .not then
        expect debug .null
        (by apply comparisonLoop : Expression → Bool → ParseM Expression)
          (.isNotNull left) hadComparison
      else
        expect debug .null
        (by apply comparisonLoop : Expression → Bool → ParseM Expression)
          (.isNull left) hadComparison
    | .in_ =>
      advance
      let list ← (by apply parseChain : ChainLevel → ParseM Expression) .concat
      (by apply comparisonLoop : Expression → Bool → ParseM Expression)
        (.inList left list) hadComparison
    | .like =>
      advance
      let pattern ← (by apply parseChain : ChainLevel → ParseM Expression) .concat
      (by apply comparisonLoop : Expression → Bool → ParseM Expression)
        (.like left pattern) hadComparison
    | _ => return left
partial_fixpoint

def parseUnaryExpr : ParseM Expression := do
  match ← peekToken with
  | .minus =>
    advance
    enterDepth
    let operand ← (by apply parseUnaryExpr : ParseM Expression)
    exitDepth
    return .unaryOp .neg operand
  | .plus =>
    advance
    enterDepth
    let operand ← (by apply parseUnaryExpr : ParseM Expression)
    exitDepth
    return .unaryOp .pos operand
  | _ => (by apply parsePostfixExpr : ParseM Expression)
partial_fixpoint

def parsePostfixExpr : ParseM Expression := do
  let expr ← (by apply parsePrimary : ParseM Expression)
  (by apply postfixLoop : Expression → ParseM Expression) expr
partial_fixpoint

def postfixLoop (expr : Expression) : ParseM Expression := do
  if (← peekToken) = .dot then
    advance
    let property ← expectIdentOrKeyword debug
    (by apply postfixLoop : Expression → ParseM Expression) (.propertyAccess expr property)
  else return expr
partial_fixpoint

def parsePrimary : ParseM Expression := do
  let t ← peekToken
  match literalOf t with
  | some lit =>
    advance
    return .literal lit
  | none =>
    match aggregateOf t with
    | some function =>
      if ← lookaheadIsLParen then
        (by apply parseAggregate : AggregateFunction → ParseM Expression) function
      else
        advance
        return .identifier (keywordToString debug t)
    | none =>
      match t with
      | .parameter name =>
        advance
        return .parameter name
      | .lParen =>
        enterDepth
        advance
        let expr ← (by apply parseChain : ChainLevel → ParseM Expression) .or
        expect debug .rParen
        exitDepth
        return expr
      | .lBracket =>
        advance
        let items ← (by apply parseItems : Token → ParseM (List Expression)) .rBracket
        expect debug .rBracket
        return .list items
      | .lBrace =>
        advance
        let entries ← (by apply parseEntries : ParseM (List (String × Expression)))
        expect debug .rBrace
        return .map entries
      | .case => (by apply parseCaseExpression : ParseM Expression)
      | .exists_ =>
        advance
        expect debug .lBrace
        let _ ← statement
        expect debug .rBrace
        return .existsQuery
      | .type =>
        (by apply parseCallOrName : String → ParseM Expression) (keywordToString debug t)
      | .ident name => (by apply parseCallOrName : String → ParseM Expression) name
      | .star =>
        advance
        return .identifier "*"
      | _ => parseFail ("unexpected token in expression: " ++ debug t)
partial_fixpoint

/-- A name, or a call when a parenthesis follows. -/
def parseCallOrName (name : String) : ParseM Expression := do
  advance
  if (← peekToken) = .lParen then
    advance
    let args ← (by apply parseItems : Token → ParseM (List Expression)) .rParen
    expect debug .rParen
    return .functionCall name args
  else return .identifier name
partial_fixpoint

/-- Expressions between commas, up to the token that closes them. -/
def parseItems (close : Token) : ParseM (List Expression) := do
  if (← peekToken) ≠ close then
    let item ← (by apply parseChain : ChainLevel → ParseM Expression) .or
    (by apply moreItems : List Expression → ParseM (List Expression)) [item]
  else return []
partial_fixpoint

def moreItems (items : List Expression) : ParseM (List Expression) := do
  if ← matchToken .comma then
    let item ← (by apply parseChain : ChainLevel → ParseM Expression) .or
    (by apply moreItems : List Expression → ParseM (List Expression)) (items ++ [item])
  else return items
partial_fixpoint

def parseEntries : ParseM (List (String × Expression)) := do
  if (← peekToken) ≠ .rBrace then
    let key ← expectIdent debug
    expect debug .colon
    let value ← (by apply parseChain : ChainLevel → ParseM Expression) .or
    (by apply moreEntries : List (String × Expression) → ParseM (List (String × Expression)))
      [(key, value)]
  else return []
partial_fixpoint

def moreEntries (entries : List (String × Expression)) : ParseM (List (String × Expression)) := do
  if ← matchToken .comma then
    let key ← expectIdent debug
    expect debug .colon
    let value ← (by apply parseChain : ChainLevel → ParseM Expression) .or
    (by apply moreEntries : List (String × Expression) → ParseM (List (String × Expression)))
      (entries ++ [(key, value)])
  else return entries
partial_fixpoint

def parseAggregate (function : AggregateFunction) : ParseM Expression := do
  advance
  expect debug .lParen
  if ← matchToken .star then
    expect debug .rParen
    return .aggregate function false none
  else
    let distinct ← matchToken .distinct
    if (← peekToken) ≠ .rParen then
      let arg ← (by apply parseChain : ChainLevel → ParseM Expression) .or
      expect debug .rParen
      return .aggregate function distinct (some arg)
    else
      expect debug .rParen
      return .aggregate function distinct none
partial_fixpoint

def parseCaseExpression : ParseM Expression := do
  expect debug .case
  if (← peekToken) ≠ .when then
    let operand ← (by apply parseChain : ChainLevel → ParseM Expression) .or
    (by apply parseCaseArms : Option Expression → ParseM Expression) (some operand)
  else (by apply parseCaseArms : Option Expression → ParseM Expression) none
partial_fixpoint

/-- The arms of a `CASE`, behind its operand. -/
def parseCaseArms (operand : Option Expression) : ParseM Expression := do
  let clauses ←
    (by apply whenLoop : List (Expression × Expression) → ParseM (List (Expression × Expression))) []
  if ← matchToken .else_ then
    let result ← (by apply parseChain : ChainLevel → ParseM Expression) .or
    expect debug .end_
    return .caseWhen operand clauses (some result)
  else
    expect debug .end_
    return .caseWhen operand clauses none
partial_fixpoint

def whenLoop (clauses : List (Expression × Expression)) :
    ParseM (List (Expression × Expression)) := do
  if ← matchToken .when then
    let condition ← (by apply parseChain : ChainLevel → ParseM Expression) .or
    expect debug .then_
    let result ← (by apply parseChain : ChainLevel → ParseM Expression) .or
    (by apply whenLoop : List (Expression × Expression) → ParseM (List (Expression × Expression)))
      (clauses ++ [(condition, result)])
  else return clauses
partial_fixpoint

end

def parseOrExpr : ParseM Expression := parseChain debug statement .or

def parseXorExpr : ParseM Expression := parseChain debug statement .xor

def parseAndExpr : ParseM Expression := parseChain debug statement .and

def parseConcatExpr : ParseM Expression := parseChain debug statement .concat

def parseAdditionExpr : ParseM Expression := parseChain debug statement .addition

def parseMultiplicationExpr : ParseM Expression := parseChain debug statement .multiplication

def parseExpression : ParseM Expression := parseOrExpr debug statement

end Debug

end Synaptica.Gql
