import Synaptica.Gql.Parser

/-!
# Printing expressions

The tokens of an expression, with parentheses only where the levels of precedence, the left
associativity of the operators or the ban on chained comparisons ask for them. Levels count upwards
from `OR` to names and literals; an operand is enclosed if it stands on a lower level than its place.
-/

namespace Synaptica.Gql

/-! ## Levels -/

namespace BinaryOp

def level : BinaryOp → Nat
  | .or => 0
  | .xor => 1
  | .and => 2
  | .eq | .neq | .lt | .gt | .le | .ge => 4
  | .concat => 5
  | .add | .sub => 6
  | .mul | .div | .mod => 7

def token : BinaryOp → Token
  | .or => .or
  | .xor => .xor
  | .and => .and
  | .eq => .eq
  | .neq => .neq
  | .lt => .lt
  | .gt => .gt
  | .le => .le
  | .ge => .ge
  | .concat => .doublePipe
  | .add => .plus
  | .sub => .minus
  | .mul => .star
  | .div => .slash
  | .mod => .percent

end BinaryOp

namespace UnaryOp

def level : UnaryOp → Nat
  | .not => 3
  | .neg | .pos => 8

def token : UnaryOp → Token
  | .not => .not
  | .neg => .minus
  | .pos => .plus

end UnaryOp

namespace Expression

def level : Expression → Nat
  | .binaryOp _ op _ => op.level
  | .unaryOp op _ => op.level
  | .isNull _ | .isNotNull _ | .inList _ _ | .like _ _ => 4
  | .propertyAccess _ _ => 9
  | _ => 10

/-- A comparison operator was read on the way from the left end, so that no other may follow. -/
def chained : Expression → Bool
  | .binaryOp _ op _ => op.level == 4
  | .isNull inner | .isNotNull inner => inner.chained
  | .inList operand _ | .like operand _ => operand.chained
  | _ => false

def parensAt (level : Nat) (e : Expression) : Bool := e.level < level

/-- Whether the left operand of an operator is enclosed. -/
def parensLeft (op : BinaryOp) (e : Expression) : Bool :=
  e.level < op.level || op.level == 4 && e.chained

end Expression

/-! ## Names -/

/-- The keywords that are names as well. -/
def nameKeywords : List (String × Token) :=
  [("type", .type), ("count", .count), ("sum", .sum), ("avg", .avg), ("min", .min), ("max", .max),
    ("collect", .collect)]

def nameToken (name : String) : Token := (nameKeywords.lookup name).getD (.ident name)

/-- A function may be named `type`; the other keywords would begin an aggregate. -/
def callToken (name : String) : Token := if name = "type" then .type else .ident name

def propertyToken (property : String) : Token :=
  (propertyKeywords.find? fun k => k.2 = property).elim (.ident property) Prod.fst

namespace AggregateFunction

/-- `STDDEV` and `PERCENTILE` have no keyword. -/
def token : AggregateFunction → Option Token
  | .count => some .count
  | .sum => some .sum
  | .avg => some .avg
  | .min => some .min
  | .max => some .max
  | .collect => some .collect
  | .stdDev | .percentile => none

end AggregateFunction

namespace Literal

/-- The literals that are one token. -/
def token : Literal → Option Token
  | .integer n => some (.integerLit n)
  | .float bits => some (.floatLit bits)
  | .string s => some (.stringLit s)
  | .bool true => some .true_
  | .bool false => some .false_
  | .null => some .null
  | _ => none

end Literal

/-! ## The printer -/

def enclose (parens : Bool) (ts : List Token) : List Token :=
  if parens then .lParen :: ts ++ [.rParen] else ts

namespace Expression

mutual

/-- The tokens of an expression; what has no tokens in the grammar is left out. -/
def tokens : Expression → List Token
  | .literal lit => lit.token.toList
  | .identifier name => [nameToken name]
  | .parameter name => [.parameter name]
  | .propertyAccess object property =>
    enclose (object.parensAt 9) object.tokens ++ [.dot, propertyToken property]
  | .functionCall name args => callToken name :: .lParen :: itemTokens args ++ [.rParen]
  | .binaryOp left op right =>
    enclose (left.parensLeft op) left.tokens ++
      op.token :: enclose (right.parensAt (op.level + 1)) right.tokens
  | .unaryOp op operand => op.token :: enclose (operand.parensAt op.level) operand.tokens
  | .caseWhen operand whenClauses elseClause =>
    .case :: operandTokens operand ++ whenTokens whenClauses ++ elseTokens elseClause ++ [.end_]
  | .aggregate function distinct arg =>
    function.token.toList ++ .lParen :: argumentTokens distinct arg ++ [.rParen]
  | .list items => .lBracket :: itemTokens items ++ [.rBracket]
  | .map entries => .lBrace :: entryTokens entries ++ [.rBrace]
  | .isNull inner => enclose (inner.parensAt 4) inner.tokens ++ [.is, .null]
  | .isNotNull inner => enclose (inner.parensAt 4) inner.tokens ++ [.is, .not, .null]
  | .inList operand right =>
    enclose (operand.parensAt 4) operand.tokens ++ .in_ :: enclose (right.parensAt 5) right.tokens
  | .like operand pattern =>
    enclose (operand.parensAt 4) operand.tokens ++ .like :: enclose (pattern.parensAt 5) pattern.tokens
  | .existsQuery | .subquery | .typeCast _ _ | .path => []

/-- Expressions with commas between them. -/
def itemTokens : List Expression → List Token
  | [] => []
  | item :: items => item.tokens ++ moreItemTokens items

def moreItemTokens : List Expression → List Token
  | [] => []
  | item :: items => .comma :: item.tokens ++ moreItemTokens items

def entryTokens : List (String × Expression) → List Token
  | [] => []
  | (key, value) :: entries => .ident key :: .colon :: value.tokens ++ moreEntryTokens entries

def moreEntryTokens : List (String × Expression) → List Token
  | [] => []
  | (key, value) :: entries =>
    .comma :: .ident key :: .colon :: value.tokens ++ moreEntryTokens entries

def argumentTokens : Bool → Option Expression → List Token
  | false, none => [.star]
  | true, none => [.distinct]
  | false, some arg => arg.tokens
  | true, some arg => .distinct :: arg.tokens

def operandTokens : Option Expression → List Token
  | none => []
  | some operand => operand.tokens

def whenTokens : List (Expression × Expression) → List Token
  | [] => []
  | (condition, result) :: clauses =>
    .when :: condition.tokens ++ .then_ :: result.tokens ++ whenTokens clauses

def elseTokens : Option Expression → List Token
  | none => []
  | some result => .else_ :: result.tokens

end

mutual

/-- How many of the parentheses, `NOT`s and signs that are printed enclose a point at most. -/
def nest : Expression → Nat
  | .propertyAccess object _ => object.nest + (object.parensAt 9).toNat
  | .functionCall _ args => itemNest args
  | .binaryOp left op right =>
    max (left.nest + (left.parensLeft op).toNat) (right.nest + (right.parensAt (op.level + 1)).toNat)
  | .unaryOp op operand => operand.nest + (operand.parensAt op.level).toNat + 1
  | .caseWhen operand whenClauses elseClause =>
    max (optionNest operand) (max (whenNest whenClauses) (optionNest elseClause))
  | .aggregate _ _ arg => optionNest arg
  | .list items => itemNest items
  | .map entries => entryNest entries
  | .isNull inner | .isNotNull inner => inner.nest + (inner.parensAt 4).toNat
  | .inList operand right | .like operand right =>
    max (operand.nest + (operand.parensAt 4).toNat) (right.nest + (right.parensAt 5).toNat)
  | _ => 0

def itemNest : List Expression → Nat
  | [] => 0
  | item :: items => max item.nest (itemNest items)

def entryNest : List (String × Expression) → Nat
  | [] => 0
  | (_, value) :: entries => max value.nest (entryNest entries)

def whenNest : List (Expression × Expression) → Nat
  | [] => 0
  | (condition, result) :: clauses => max (max condition.nest result.nest) (whenNest clauses)

def optionNest : Option Expression → Nat
  | none => 0
  | some e => e.nest

end

end Expression

/-- The expressions that have tokens: literals of one token, names other than `*`, parameters,
property access, calls, aggregates with a keyword, operators, lists, maps, and `CASE` with an arm. -/
inductive Printable : Expression → Prop where
  | literal {lit : Literal} (h : lit.token.isSome) : Printable (.literal lit)
  | identifier {name : String} (h : name ≠ "*") : Printable (.identifier name)
  | parameter (name : String) : Printable (.parameter name)
  | propertyAccess {object : Expression} (h : Printable object) (property : String) :
    Printable (.propertyAccess object property)
  | functionCall (name : String) {args : List Expression} (h : ∀ e ∈ args, Printable e) :
    Printable (.functionCall name args)
  | binaryOp {left right : Expression} (op : BinaryOp) (hl : Printable left) (hr : Printable right) :
    Printable (.binaryOp left op right)
  | unaryOp (op : UnaryOp) {operand : Expression} (h : Printable operand) :
    Printable (.unaryOp op operand)
  | caseWhen {operand elseClause : Option Expression} {clauses : List (Expression × Expression)}
    (ho : ∀ e ∈ operand, Printable e) (hne : clauses ≠ []) (hc : ∀ c ∈ clauses, Printable c.1)
    (hr : ∀ c ∈ clauses, Printable c.2) (he : ∀ e ∈ elseClause, Printable e) :
    Printable (.caseWhen operand clauses elseClause)
  | aggregate {function : AggregateFunction} (h : function.token.isSome) (distinct : Bool)
    {arg : Option Expression} (ha : ∀ e ∈ arg, Printable e) :
    Printable (.aggregate function distinct arg)
  | list {items : List Expression} (h : ∀ e ∈ items, Printable e) : Printable (.list items)
  | map {entries : List (String × Expression)} (h : ∀ e ∈ entries, Printable e.2) :
    Printable (.map entries)
  | isNull {inner : Expression} (h : Printable inner) : Printable (.isNull inner)
  | isNotNull {inner : Expression} (h : Printable inner) : Printable (.isNotNull inner)
  | inList {operand list : Expression} (ho : Printable operand) (hl : Printable list) :
    Printable (.inList operand list)
  | like {operand pattern : Expression} (ho : Printable operand) (hp : Printable pattern) :
    Printable (.like operand pattern)

end Synaptica.Gql
