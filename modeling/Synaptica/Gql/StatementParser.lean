import Synaptica.Gql.Parser

/-!
# The parser of statements

`synaptica_gql::parser`, from the clauses up to whole programs. What the planner never reads of a
clause (a quantifier, `GROUP BY`, the bounds of a `MATCH`) is parsed and dropped.

Statements nest in `EXISTS` and behind `UNION`, `INTERSECT` and `EXCEPT`. The parsing functions take the
parser of the nested statement; `parseStatementAt` allows a number of levels, and `parse` as many as
there are tokens.
-/

namespace Synaptica.Gql

/-- A `while` loop that reads another item behind each separator. -/
def itemLoop {α : Type} (separator : Token) (item : ParseM α) (items : List α) : ParseM (List α) := do
  if ← matchToken separator then
    let next ← item
    (by apply itemLoop : Token → ParseM α → List α → ParseM (List α)) separator item (items ++ [next])
  else return items
partial_fixpoint

/-- Items between commas, one at least. -/
def commaItems {α : Type} (item : ParseM α) : ParseM (List α) := do
  let first ← item
  itemLoop .comma item [first]

def atEnd : ParseM Bool := do return (← peekToken) = .eof

/-- `{min, max}` behind a path or an edge; `none` leaves a bound open. -/
structure Quantifier where
  min : Option Nat
  max : Option Nat
  deriving DecidableEq, Repr

structure PropertyDecl where
  name : String
  propertyType : String
  required : Bool
  deriving DecidableEq, Repr

structure NodeType where
  labels : List String
  properties : List PropertyDecl
  deriving DecidableEq, Repr

structure EdgeType where
  labels : List String
  source : List String
  destination : List String
  properties : List PropertyDecl
  deriving DecidableEq, Repr

structure GraphType where
  nodeTypes : List NodeType
  edgeTypes : List EdgeType
  deriving DecidableEq, Repr

section Debug

variable (debug : Token → String)

/-! ## Schema statements -/

def parseIfNotExists : ParseM Bool := do
  if (← peekToken) = .if_ then
    advance
    expect debug .not
    expect debug .exists_
    return true
  else return false

def parseIfExists : ParseM Bool := do
  if (← peekToken) = .if_ then
    advance
    expect debug .exists_
    return true
  else return false

/-- `v.prop`, or just `prop`. -/
def parseIndexProperty : ParseM String := do
  let first ← expectIdentOrKeyword debug
  if (← peekToken) = .dot then
    advance
    expectIdentOrKeyword debug
  else return first

/-- The entity pattern of an index, `FOR (v:Label)`: its label, if it has one. -/
def parseIndexEntity : ParseM (Option String) := do
  expect debug .for_
  expect debug .lParen
  let _ ← expectIdentOrKeyword debug
  if (← peekToken) = .colon then
    advance
    let label ← expectIdentOrKeyword debug
    expect debug .rParen
    return some label
  else
    expect debug .rParen
    return none

/-- The properties of an index, `ON (v.prop1, ...)`. -/
def parseIndexProperties : ParseM (List String) := do
  expect debug .on
  expect debug .lParen
  let propertyNames ← commaItems (parseIndexProperty debug)
  expect debug .rParen
  return propertyNames

/-- `CREATE [UNIQUE] INDEX [IF NOT EXISTS] name FOR (v:Label) ON (v.prop1, ...)`. -/
def parseCreateIndexRest : ParseM GqlStatement := do
  let unique ← matchToken .unique
  expect debug .index
  let _ ← parseIfNotExists debug
  let name ← expectIdentOrKeyword debug
  let label ← parseIndexEntity debug
  let propertyNames ← parseIndexProperties debug
  return .createIndex ⟨name, unique, "node", label, propertyNames⟩

def parsePropertyDecl : ParseM PropertyDecl := do
  let name ← expectIdent debug
  expect debug .colon
  let propertyType ← expectIdent debug
  if (← peekToken) = .not then
    advance
    expect debug .null
    return ⟨name, propertyType, true⟩
  else return ⟨name, propertyType, false⟩

def propertyDeclLoop (props : List PropertyDecl) : ParseM (List PropertyDecl) := do
  let t ← peekToken
  if t ≠ .rBrace ∧ t ≠ .eof then
    let prop ← parsePropertyDecl debug
    let _ ← matchToken .comma
    (by apply propertyDeclLoop : List PropertyDecl → ParseM (List PropertyDecl)) (props ++ [prop])
  else return props
partial_fixpoint

def parsePropertyDecls : ParseM (List PropertyDecl) := do
  expect debug .lBrace
  let props ← propertyDeclLoop debug []
  expect debug .rBrace
  return props

/-- Property declarations in braces, if there are any. -/
def parseOptionalPropertyDecls : ParseM (List PropertyDecl) := do
  if (← peekToken) = .lBrace then parsePropertyDecls debug else return []

def parseLabels : ParseM (List String) := itemLoop .colon (expectIdent debug) []

def parseNodeTypeDecl : ParseM NodeType := do
  let labels ← parseLabels debug
  let properties ← parseOptionalPropertyDecls debug
  return ⟨labels, properties⟩

/-- `FROM A` or `TO B` of an edge type. -/
def parseEndpoint (keyword : Token) : ParseM (List String) := do
  if (← peekToken) = keyword then
    advance
    let label ← expectIdent debug
    return [label]
  else return []

def parseEdgeTypeDecl : ParseM EdgeType := do
  let labels ← parseLabels debug
  let source ← parseEndpoint debug .from_
  let destination ← parseEndpoint debug .to
  let properties ← parseOptionalPropertyDecls debug
  return ⟨labels, source, destination, properties⟩

def graphTypeLoop (graphType : GraphType) : ParseM GraphType := do
  let t ← peekToken
  if t ≠ .rBrace ∧ t ≠ .eof then
    if t = .node then
      advance
      let nodeType ← parseNodeTypeDecl debug
      let _ ← matchToken .comma
      (by apply graphTypeLoop : GraphType → ParseM GraphType)
        { graphType with nodeTypes := graphType.nodeTypes ++ [nodeType] }
    else if t = .edge then
      advance
      let edgeType ← parseEdgeTypeDecl debug
      let _ ← matchToken .comma
      (by apply graphTypeLoop : GraphType → ParseM GraphType)
        { graphType with edgeTypes := graphType.edgeTypes ++ [edgeType] }
    else parseFail "expected NODE or EDGE in graph type"
  else return graphType
partial_fixpoint

def parseGraphTypeDef : ParseM GraphType := do
  expect debug .lBrace
  let graphType ← graphTypeLoop debug ⟨[], []⟩
  expect debug .rBrace
  return graphType

def parseCreateGraphRest : ParseM GqlStatement := do
  let ifNotExists ← parseIfNotExists debug
  let name ← expectIdent debug
  if (← peekToken) = .lBrace then
    let _ ← parseGraphTypeDef debug
    return .createGraph name ifNotExists
  else return .createGraph name ifNotExists

def parseCreateGraphTypeRest : ParseM GqlStatement := do
  let _ ← parseIfNotExists debug
  let _ ← expectIdent debug
  let _ ← parseGraphTypeDef debug
  return .createGraphType

def parseCreateStatement : ParseM GqlStatement := do
  expect debug .create
  let t ← peekToken
  if t = .unique ∨ t = .index then parseCreateIndexRest debug
  else if t = .graph then
    advance
    if (← peekToken) = .type then
      advance
      parseCreateGraphTypeRest debug
    else parseCreateGraphRest debug
  else parseFail ("expected GRAPH, INDEX, or UNIQUE after CREATE, found " ++ debug t)

def parseDropStatement : ParseM GqlStatement := do
  expect debug .drop
  let t ← peekToken
  if t = .index then
    advance
    let _ ← parseIfExists debug
    let name ← expectIdentOrKeyword debug
    return .dropIndex name
  else if t = .graph then
    advance
    let ifExists ← parseIfExists debug
    let name ← expectIdent debug
    return .dropGraph name ifExists
  else parseFail ("expected GRAPH or INDEX after DROP, found " ++ debug t)

/-- Whether the token is an identifier that reads, in any case, as one of the words. -/
def Token.isWord (words : List String) : Token → Bool
  | .ident s => words.contains (String.ofList (s.toList.map Char.toLower))
  | _ => false

/-- `LIST GRAPHS`; in `LIST GRAPH S` the `S` is an identifier of its own. -/
def parseListStatement : ParseM GqlStatement := do
  expect debug .list
  let t ← peekToken
  if t = .graph then
    advance
    if (← peekToken).isWord ["s", "graphs"] then
      advance
      return .listGraphs
    else return .listGraphs
  else if t.isWord ["graphs"] then
    advance
    return .listGraphs
  else parseFail ("expected GRAPHS after LIST, found " ++ debug t)

/-! ## Targets -/

def targetLoop (expr : Expression) : ParseM Expression := do
  if ← matchToken .dot then
    let property ← expectIdentOrKeyword debug
    (by apply targetLoop : Expression → ParseM Expression) (.propertyAccess expr property)
  else return expr
partial_fixpoint

/-- The target of `SET` or `REMOVE`: an identifier with a chain of property accesses. -/
def parseTargetExpr : ParseM Expression := do
  let name ← expectIdent debug
  targetLoop debug (.identifier name)

/-- An item of `REMOVE`, which nothing behind the parser looks at. -/
def parseRemoveItem : ParseM Unit := do
  let target ← parseTargetExpr debug
  if ← matchToken .colon then
    let _ ← expectIdent debug
    return ()
  else
    match target with
    | .propertyAccess _ _ => return ()
    | _ => parseFail "expected property access or label in REMOVE"

def parseRemoveStatement : ParseM GqlStatement := do
  expect debug .remove
  let _ ← commaItems (parseRemoveItem debug)
  return .remove

/-! ## Quantifiers -/

/-- A bound of a quantifier, `none` if no number stands there. -/
def parseBound (message : String) : ParseM (Option Nat) := do
  match ← peekToken with
  | .integerLit n =>
    advance
    if n < 0 then parseFail message else return some n.toInt.toNat
  | _ => return none

/-- A brace begins a quantifier if an integer or a comma follows it. -/
def quantifierBegins : ParseM Bool := do
  if (← peekToken) = .lBrace then
    match (← get).peekAt 1 with
    | some (.integerLit _) | some .comma => return true
    | _ => return false
  else return false

/-- Behind the comma stands the upper bound; without one the repetition is exact. -/
def parseMaxBound (min : Option Nat) : ParseM (Option Nat) := do
  if ← matchToken .comma then parseBound "quantifier max must be non-negative" else return min

/-- The bounds are in the wrong order. -/
def Quantifier.isInverted (q : Quantifier) : Bool :=
  match q.min, q.max with
  | some low, some high => high < low
  | _, _ => false

def parseOptionalQuantifier : ParseM (Option Quantifier) := do
  if ← quantifierBegins then
    advance
    let min ← parseBound "quantifier min must be non-negative"
    let max ← parseMaxBound min
    if (Quantifier.mk min max).isInverted then
      parseFail ("invalid quantifier: max (" ++ toString (max.getD 0) ++ ") cannot be less than min ("
        ++ toString (min.getD 0) ++ ")")
    else
      expect debug .rBrace
      return some ⟨min, max⟩
  else return none

/-- `WALK`, `TRAIL`, `SIMPLE` or `ACYCLIC`, which plays no part in planning. -/
def parseOptionalPathMode : ParseM Unit := do
  let t ← peekToken
  if t = .walk ∨ t = .trail ∨ t = .simple ∨ t = .acyclic then advance else return ()

def isEdgeStart : ParseM Bool := do
  match ← peekToken with
  | .leftArrow | .arrow => return true
  | .minus => return (← get).peekAt 1 = some .lBracket
  | _ => return false

/-- The variable of a pattern: an identifier with one of `:`, `{` or the closing token behind it. -/
def parsePatternVariable (close : Token) : ParseM (Option String) := do
  match ← peekToken with
  | .ident _ =>
    let next := (← get).peekAt 1
    if next = some .colon ∨ next = some close ∨ next = some .lBrace then
      let name ← expectIdent debug
      return some name
    else return none
  | _ => return none

-- The parser of a nested statement.
variable (nested : ParseM GqlStatement)

/-! ## Patterns -/

def parsePropertyEntry : ParseM (String × Expression) := do
  let key ← expectIdentOrKeyword debug
  expect debug .colon
  let value ← parseExpression debug nested
  return (key, value)

def parsePropertyMap : ParseM (List (String × Expression)) := do
  expect debug .lBrace
  if (← peekToken) ≠ .rBrace then
    let props ← commaItems (parsePropertyEntry debug nested)
    expect debug .rBrace
    return props
  else
    expect debug .rBrace
    return []

/-- What stands inside a node or edge pattern: variable, labels and property map. -/
def parsePatternInternals (close : Token) :
    ParseM (Option String × List String × List (String × Expression)) := do
  let var ← parsePatternVariable debug close
  let labels ← parseLabels debug
  if (← peekToken) = .lBrace then
    let properties ← parsePropertyMap debug nested
    return (var, labels, properties)
  else return (var, labels, [])

def parseNodePattern : ParseM NodePattern := do
  expect debug .lParen
  let (var, labels, properties) ← parsePatternInternals debug nested .rParen
  expect debug .rParen
  return ⟨var, labels, properties⟩

def parseEdgePattern : ParseM EdgePattern := do
  let t ← peekToken
  if t = .leftArrow then
    advance
    if (← peekToken) = .lBracket then
      advance
      let (var, labels, properties) ← parsePatternInternals debug nested .rBracket
      expect debug .rBracket
      expect debug .minus
      let _ ← parseOptionalQuantifier debug
      return ⟨var, .incoming, labels, properties⟩
    else
      let _ ← parseOptionalQuantifier debug
      return ⟨none, .incoming, [], []⟩
  else if t = .arrow then
    advance
    let _ ← parseOptionalQuantifier debug
    return ⟨none, .outgoing, [], []⟩
  else if t = .minus then
    advance
    expect debug .lBracket
    let (var, labels, properties) ← parsePatternInternals debug nested .rBracket
    expect debug .rBracket
    if ← matchToken .arrow then
      let _ ← parseOptionalQuantifier debug
      return ⟨var, .outgoing, labels, properties⟩
    else
      expect debug .minus
      let _ ← parseOptionalQuantifier debug
      return ⟨var, .undirected, labels, properties⟩
  else parseFail "expected edge pattern"

/-- A node pattern, if one begins here. -/
def parseOptionalNode : ParseM (List PatternElement) := do
  if (← peekToken) = .lParen then
    let node ← parseNodePattern debug nested
    return [.node node]
  else return []

def edgeLoop (elements : List PatternElement) : ParseM (List PatternElement) := do
  if ← isEdgeStart then
    let edge ← parseEdgePattern debug nested
    let node ← parseOptionalNode debug nested
    (by apply edgeLoop : List PatternElement → ParseM (List PatternElement))
      (elements ++ .edge edge :: node)
  else return elements
partial_fixpoint

def parsePathPattern : ParseM PathPattern := do
  parseOptionalPathMode
  let first ← parseOptionalNode debug nested
  let elements ← edgeLoop debug nested first
  let _ ← parseOptionalQuantifier debug
  return ⟨elements⟩

def parseGraphPattern : ParseM (List PathPattern) := commaItems (parsePathPattern debug nested)

/-! ## Clauses -/

/-- An expression behind a keyword, if the keyword stands there. -/
def parseOptionalClause (keyword : Token) : ParseM (Option Expression) := do
  if ← matchToken keyword then
    let e ← parseExpression debug nested
    return some e
  else return none

def parseWhereClause : ParseM Expression := do
  expect debug .where_
  parseExpression debug nested

def parseOptionalWhere : ParseM (Option Expression) := do
  if (← peekToken) = .where_ then
    let condition ← parseWhereClause debug nested
    return some condition
  else return none

def parseOrderByItem : ParseM OrderByItem := do
  let expression ← parseExpression debug nested
  if ← matchToken .desc then return ⟨expression, .desc⟩
  else
    let _ ← matchToken .asc
    return ⟨expression, .asc⟩

def parseOrderByClause : ParseM (List OrderByItem) := do
  expect debug .order
  expect debug .by_
  commaItems (parseOrderByItem debug nested)

def parseOptionalOrderBy : ParseM (Option (List OrderByItem)) := do
  if (← peekToken) = .order then
    let items ← parseOrderByClause debug nested
    return some items
  else return none

def parseLimitOffset : ParseM (Option LimitOffsetClause) := do
  let limit ← parseOptionalClause debug nested .limit
  let offset ← parseOptionalClause debug nested .offset
  if limit.isSome ∨ offset.isSome then return some ⟨limit, offset⟩ else return none

def parseGroupByClause : ParseM (List Expression) := do
  expect debug .group
  expect debug .by_
  commaItems (parseExpression debug nested)

def parseOptionalGroupBy : ParseM (Option (List Expression)) := do
  if (← peekToken) = .group then
    let expressions ← parseGroupByClause debug nested
    return some expressions
  else return none

def parseReturnItem : ParseM ReturnItem := do
  let expression ← parseExpression debug nested
  if ← matchToken .as then
    let aliasName ← expectIdentOrKeyword debug
    return ⟨expression, some aliasName⟩
  else return ⟨expression, none⟩

def parseReturnItems : ParseM (List ReturnItem) := commaItems (parseReturnItem debug nested)

/-! ## Statements -/

/-- A set operation behind a statement; planning refuses it, so that its operands are not kept. -/
def maybeParseComposite (first : GqlStatement) : ParseM GqlStatement := do
  let t ← peekToken
  if t = .union ∨ t = .intersect ∨ t = .except then
    advance
    enterDepth
    let _ ← matchToken .all
    let _ ← nested
    exitDepth
    return .compositeQuery
  else return first

def parseMatchStatement : ParseM GqlStatement := do
  expect debug .match_
  let paths ← parseGraphPattern debug nested
  let whereClause ← parseOptionalWhere debug nested
  let _ ← parseOptionalOrderBy debug nested
  let _ ← parseLimitOffset debug nested
  maybeParseComposite nested (.matchStmt ⟨none, paths, whereClause⟩)

def parseReturnStatement : ParseM GqlStatement := do
  expect debug .return_
  let distinct ← matchToken .distinct
  let items ← parseReturnItems debug nested
  let _ ← parseOptionalGroupBy debug nested
  let _ ← parseOptionalClause debug nested .having
  let orderBy ← parseOptionalOrderBy debug nested
  let limitOffset ← parseLimitOffset debug nested
  maybeParseComposite nested (.returnStmt ⟨distinct, items, orderBy, limitOffset⟩)

def parseWithStatement : ParseM GqlStatement := do
  expect debug .with_
  let distinct ← matchToken .distinct
  let items ← parseReturnItems debug nested
  let whereClause ← parseOptionalWhere debug nested
  let orderBy ← parseOptionalOrderBy debug nested
  let limitOffset ← parseLimitOffset debug nested
  return .withStmt ⟨distinct, items, whereClause, orderBy, limitOffset⟩

/-- The arguments of `CALL` in parentheses, if there are any. -/
def parseArguments : ParseM (List Expression) := do
  if ← matchToken .lParen then
    if (← peekToken) ≠ .rParen then
      let args ← commaItems (parseExpression debug nested)
      expect debug .rParen
      return args
    else
      expect debug .rParen
      return []
  else return []

def parseCallStatement : ParseM GqlStatement := do
  expect debug .call
  let first ← expectIdent debug
  let parts ← itemLoop .dot (expectIdent debug) []
  let name := parts.foldl (fun name part => name ++ "." ++ part) first
  let arguments ← parseArguments debug nested
  if ← matchToken .yield then
    let items ← commaItems (expectIdent debug)
    return .call name arguments (some items)
  else return .call name arguments none

def parseInsertStatement : ParseM GqlStatement := do
  expect debug .insert
  let patterns ← commaItems (parsePathPattern debug nested)
  return .insert patterns

def parseSetItem : ParseM SetItem := do
  let target ← parseTargetExpr debug
  if ← matchToken .colon then
    let label ← expectIdent debug
    return .label target label
  else if ← matchToken .eq then
    let value ← parseExpression debug nested
    match target with
    | .propertyAccess object property => return .property object property value
    | _ => return .allProperties target value
  else parseFail "expected '=' or ':' in SET clause"

def parseSetStatement : ParseM GqlStatement := do
  expect debug .set
  let items ← commaItems (parseSetItem debug nested)
  return .set items

def parseDeleteStatement : ParseM GqlStatement := do
  let detach ← matchToken .detach
  expect debug .delete
  let targets ← commaItems (parseExpression debug nested)
  return .delete detach targets

/-- A statement whose nested statements `nested` reads. -/
def parseStatement : ParseM GqlStatement := do
  let t ← peekToken
  if t = .match_ then parseMatchStatement debug nested
  else if t = .optional then
    advance
    parseMatchStatement debug nested
  else if t = .return_ then parseReturnStatement debug nested
  else if t = .with_ then parseWithStatement debug nested
  else if t = .call then parseCallStatement debug nested
  else if t = .insert then parseInsertStatement debug nested
  else if t = .set then parseSetStatement debug nested
  else if t = .delete ∨ t = .detach then parseDeleteStatement debug nested
  else if t = .remove then parseRemoveStatement debug
  else if t = .create then parseCreateStatement debug
  else if t = .drop then parseDropStatement debug
  else if t = .list then parseListStatement debug
  else parseFail ("unexpected token " ++ debug t)

/-- A statement with `levels` levels of nesting at most; what nests deeper does not end. -/
def parseStatementAt : Nat → ParseM GqlStatement
  | 0 => fun _ => none
  | levels + 1 => parseStatement debug (parseStatementAt levels)

def statementLoop (statement : ParseM GqlStatement) (statements : List GqlStatement) :
    ParseM (List GqlStatement) := do
  if ← atEnd then return statements
  else
    let next ← statement
    let _ ← matchToken .semicolon
    (by apply statementLoop : ParseM GqlStatement → List GqlStatement → ParseM (List GqlStatement))
      statement (statements ++ [next])
partial_fixpoint

end Debug

/-! ## Programs -/

namespace Token

def isComment : Token → Bool
  | .comment _ => true
  | _ => false

end Token

namespace Parser

def new (tokens : List SpannedToken) : Parser :=
  ⟨tokens.filter fun st => !st.token.isComment, 0, 0⟩

def parse (debug : Token → String) : ParseM GqlProgram := do
  let levels := (← get).tokens.length + 1
  let statements ← statementLoop (parseStatementAt debug levels) []
  return ⟨statements⟩

end Parser

/-- Lex and parse a source text in one step. -/
def parse (debug : Token → String) (input : String) : Option (Except ParseError GqlProgram) :=
  match (Lexer.new input).tokenize with
  | .error e => some (.error ⟨e.message, e.line, e.column⟩)
  | .ok tokens => (Parser.parse debug (Parser.new tokens)).run.map (Except.map Prod.fst)

end Synaptica.Gql
