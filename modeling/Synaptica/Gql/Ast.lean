import Synaptica.Core.Value

/-!
# The GQL syntax tree

`synaptica_gql::ast`, as far as planning and execution read it. A statement keeps the clauses that
some later stage looks at; a subquery or path inside an expression is never looked into (evaluating
it is not implemented), so only the constructor is kept.
-/

namespace Synaptica.Gql

/-! ## Names -/

/-- A word as `lex_identifier` reads it: an ASCII letter or `_`, then letters, digits and `_`. -/
def isIdentifier (word : String) : Bool :=
  match word.toList with
  | [] => false
  | c :: cs => (c.isAlpha || c == '_') && cs.all fun c => c.isAlphanum || c == '_'

/-! ## Expressions -/

/-- Scalar and composite literal values; a float is its bits. -/
inductive Literal where
  | integer (i : Int64)
  | float (bits : UInt64)
  | string (s : String)
  | bool (b : Bool)
  | null
  | date (s : String)
  | time (s : String)
  | timestamp (s : String)
  | duration (s : String)
  | list (items : List Literal)
  | map (entries : List (String × Literal))
  deriving Repr

inductive BinaryOp where
  | add | sub | mul | div | mod
  | and | or | xor
  | concat
  | eq | neq | lt | gt | le | ge
  deriving DecidableEq, Repr

inductive UnaryOp where
  | not | neg | pos
  deriving DecidableEq, Repr

inductive AggregateFunction where
  | count | sum | avg | min | max | collect | stdDev | percentile
  deriving DecidableEq, Repr

/-- GQL expression covering all value-producing constructs. -/
inductive Expression where
  | literal (lit : Literal)
  | identifier (name : String)
  | propertyAccess (object : Expression) (property : String)
  | functionCall (name : String) (args : List Expression)
  | binaryOp (left : Expression) (op : BinaryOp) (right : Expression)
  | unaryOp (op : UnaryOp) (operand : Expression)
  | caseWhen (operand : Option Expression) (whenClauses : List (Expression × Expression))
      (elseClause : Option Expression)
  | existsQuery
  | aggregate (function : AggregateFunction) (distinct : Bool) (arg : Option Expression)
  | list (items : List Expression)
  | map (entries : List (String × Expression))
  | parameter (name : String)
  | subquery
  | isNull (inner : Expression)
  | isNotNull (inner : Expression)
  | inList (operand list : Expression)
  | like (operand pattern : Expression)
  | typeCast (expr : Expression) (targetType : String)
  | path
  deriving Repr

/-! ## Patterns -/

inductive Direction where
  | outgoing | incoming | undirected
  deriving DecidableEq, Repr

/-- A node pattern `(v:Label {prop: val})`. -/
structure NodePattern where
  var : Option String
  labels : List String
  properties : List (String × Expression)

/-- An edge pattern `-[e:REL_TYPE {prop: val}]->`. -/
structure EdgePattern where
  var : Option String
  direction : Direction
  labels : List String
  properties : List (String × Expression)

inductive PatternElement where
  | node (n : NodePattern)
  | edge (e : EdgePattern)

/-- A single path pattern composed of nodes and edges. -/
structure PathPattern where
  elements : List PatternElement

namespace PatternElement

def asNode : PatternElement → Option NodePattern
  | node n => some n
  | edge _ => none

def asEdge : PatternElement → Option EdgePattern
  | node _ => none
  | edge e => some e

end PatternElement

/-! ## Statements -/

inductive SortDirection where
  | asc | desc
  deriving DecidableEq, Repr

/-- A single item in an `ORDER BY` clause. -/
structure OrderByItem where
  expression : Expression
  direction : SortDirection

structure LimitOffsetClause where
  limit : Option Expression
  offset : Option Expression

/-- A single projection item: `<expr> [AS <alias>]`. -/
structure ReturnItem where
  expression : Expression
  aliasName : Option String

/-- A `MATCH` statement. -/
structure MatchStatement where
  graph : Option String
  paths : List PathPattern
  whereClause : Option Expression

/-- A `RETURN` statement. -/
structure ReturnStatement where
  distinct : Bool
  items : List ReturnItem
  orderBy : Option (List OrderByItem)
  limitOffset : Option LimitOffsetClause

/-- A `WITH` statement: projects intermediate results for further processing. -/
structure WithStatement where
  distinct : Bool
  items : List ReturnItem
  whereClause : Option Expression
  orderBy : Option (List OrderByItem)
  limitOffset : Option LimitOffsetClause

/-- A single item in a `SET` clause. -/
inductive SetItem where
  | property (target : Expression) (property : String) (value : Expression)
  | label (target : Expression) (label : String)
  | allProperties (target value : Expression)

/-- `CREATE [UNIQUE] INDEX name FOR (v:Label) ON (v.prop1, v.prop2)`. -/
structure CreateIndexStatement where
  name : String
  unique : Bool
  entityType : String
  label : Option String
  propertyNames : List String

/-- A single GQL statement. -/
inductive GqlStatement where
  | matchStmt (m : MatchStatement)
  | returnStmt (r : ReturnStatement)
  | insert (patterns : List PathPattern)
  | set (items : List SetItem)
  | delete (detach : Bool) (targets : List Expression)
  | remove
  | createGraph (name : String) (ifNotExists : Bool)
  | dropGraph (name : String) (ifExists : Bool)
  | createGraphType
  | call (procedure : String) (arguments : List Expression) (yieldItems : Option (List String))
  | withStmt (w : WithStatement)
  | compositeQuery
  | createIndex (c : CreateIndexStatement)
  | dropIndex (name : String)
  | listGraphs

/-- A complete GQL program consisting of one or more statements. -/
structure GqlProgram where
  statements : List GqlStatement

end Synaptica.Gql
