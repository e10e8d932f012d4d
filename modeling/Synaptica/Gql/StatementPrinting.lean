import Synaptica.Gql.Printing
import Synaptica.Gql.StatementParser

/-!
# Printing programs

The tokens of a statement, clause by clause in the order in which the parser reads them, and the
statements that have tokens of which nothing is dropped. A program is its statements, with semicolons
between them or without.
-/

namespace Synaptica.Gql

/-- Items with commas between them. -/
def commaTokens {α : Type} (print : α → List Token) : List α → List Token
  | [] => []
  | [item] => print item
  | item :: items => print item ++ .comma :: commaTokens print items

/-- A token in front of each item. -/
def eachBehind {α : Type} (t : Token) (print : α → List Token) (items : List α) : List Token :=
  items.flatMap fun item => t :: print item

def identTokens (name : String) : List Token := [.ident name]

/-! ## Patterns -/

/-- A property map in braces; none if there are no properties. -/
def propertyMapTokens (properties : List (String × Expression)) : List Token :=
  if properties.isEmpty then []
  else .lBrace :: commaTokens (fun entry => propertyToken entry.1 :: .colon :: entry.2.tokens)
    properties ++ [.rBrace]

/-- What stands inside a node or an edge. -/
def internalsTokens (var : Option String) (labels : List String)
    (properties : List (String × Expression)) : List Token :=
  var.toList.map Token.ident ++ (eachBehind .colon identTokens labels ++ propertyMapTokens properties)

def NodePattern.tokens (n : NodePattern) : List Token :=
  .lParen :: internalsTokens n.var n.labels n.properties ++ [.rParen]

def EdgePattern.tokens (e : EdgePattern) : List Token :=
  match e.direction with
  | .outgoing => .minus :: .lBracket :: internalsTokens e.var e.labels e.properties ++
      [.rBracket, .arrow]
  | .incoming => .leftArrow :: .lBracket :: internalsTokens e.var e.labels e.properties ++
      [.rBracket, .minus]
  | .undirected => .minus :: .lBracket :: internalsTokens e.var e.labels e.properties ++
      [.rBracket, .minus]

def PatternElement.tokens : PatternElement → List Token
  | .node n => n.tokens
  | .edge e => e.tokens

def PathPattern.tokens (p : PathPattern) : List Token := p.elements.flatMap PatternElement.tokens

/-! ## Clauses -/

/-- A clause behind its keywords, if there is one. -/
def clauseTokens {α : Type} (keywords : List Token) (print : α → List Token) : Option α → List Token
  | none => []
  | some clause => keywords ++ print clause

def OrderByItem.tokens (item : OrderByItem) : List Token :=
  item.expression.tokens ++ match item.direction with
    | .asc => [.asc]
    | .desc => [.desc]

def orderByTokens : Option (List OrderByItem) → List Token :=
  clauseTokens [.order, .by_] (commaTokens OrderByItem.tokens)

def limitOffsetTokens : Option LimitOffsetClause → List Token
  | none => []
  | some clause => clauseTokens [.limit] Expression.tokens clause.limit ++
      clauseTokens [.offset] Expression.tokens clause.offset

/-- An expression to return; a star alone stands for everything. -/
def returnTokens : Expression → List Token
  | .identifier name => if name = "*" then [.star] else (Expression.identifier name).tokens
  | e => e.tokens

def ReturnItem.tokens (item : ReturnItem) : List Token :=
  returnTokens item.expression ++
    clauseTokens [.as] (fun name => [propertyToken name]) item.aliasName

/-- A keyword that is there or not. -/
def flagTokens (t : Token) (flag : Bool) : List Token := if flag then [t] else []

/-! ## Statements -/

/-- An identifier with a chain of property accesses, the target of `SET`. -/
def targetTokens : Expression → List Token
  | .identifier name => [.ident name]
  | .propertyAccess object property => targetTokens object ++ [.dot, propertyToken property]
  | _ => []

def SetItem.tokens : SetItem → List Token
  | .property target name value => targetTokens (.propertyAccess target name) ++ .eq :: value.tokens
  | .label target name => targetTokens target ++ [.colon, .ident name]
  | .allProperties target value => targetTokens target ++ .eq :: value.tokens

/-- The dotted parts of a name. -/
def nameParts (name : String) : List String :=
  (name.toList.splitOn '.').map String.ofList

def procedureTokens (name : String) : List Token :=
  match nameParts name with
  | [] => []
  | first :: parts => .ident first :: eachBehind .dot identTokens parts

def argumentListTokens (arguments : List Expression) : List Token :=
  if arguments.isEmpty then [] else .lParen :: commaTokens Expression.tokens arguments ++ [.rParen]

/-- A label behind the variable of an index. -/
def indexLabelTokens (label : Option String) : List Token :=
  clauseTokens [.colon] (fun name => [propertyToken name]) label

namespace GqlStatement

/-- The tokens of a statement; a statement that the parser has reduced to its kind has none. -/
def tokens : GqlStatement → List Token
  | matchStmt m => .match_ :: commaTokens PathPattern.tokens m.paths ++
      clauseTokens [.where_] Expression.tokens m.whereClause
  | returnStmt r => .return_ :: flagTokens .distinct r.distinct ++
      (commaTokens ReturnItem.tokens r.items ++ (orderByTokens r.orderBy ++
        limitOffsetTokens r.limitOffset))
  | withStmt w => .with_ :: flagTokens .distinct w.distinct ++
      (commaTokens ReturnItem.tokens w.items ++ (clauseTokens [.where_] Expression.tokens w.whereClause
        ++ (orderByTokens w.orderBy ++ limitOffsetTokens w.limitOffset)))
  | insert patterns => .insert :: commaTokens PathPattern.tokens patterns
  | set items => .set :: commaTokens SetItem.tokens items
  | delete detach targets => flagTokens .detach detach ++ .delete :: commaTokens Expression.tokens targets
  | call procedure arguments yieldItems => .call :: procedureTokens procedure ++
      (argumentListTokens arguments ++ clauseTokens [.yield] (commaTokens identTokens) yieldItems)
  | createGraph name ifNotExists => .create :: .graph ::
      (if ifNotExists then [.if_, .not, .exists_] else []) ++ [.ident name]
  | dropGraph name ifExists => .drop :: .graph :: (if ifExists then [.if_, .exists_] else []) ++
      [.ident name]
  | createIndex c => .create :: flagTokens .unique c.unique ++ (.index :: propertyToken c.name ::
      .for_ :: .lParen :: .ident "v" :: indexLabelTokens c.label ++ (.rParen :: .on :: .lParen ::
        commaTokens (fun name => [propertyToken name]) c.propertyNames ++ [.rParen]))
  | dropIndex name => [.drop, .index, propertyToken name]
  | listGraphs => [.list, .ident "GRAPHS"]
  | remove | createGraphType | compositeQuery => []

end GqlStatement

/-- Statements one behind the other, each with a semicolon behind it or without. -/
inductive Printed : List GqlStatement → List Token → Prop where
  | nil : Printed [] []
  | semicolon {statement : GqlStatement} {statements : List GqlStatement} {ts : List Token}
    (h : Printed statements ts) :
    Printed (statement :: statements) (statement.tokens ++ .semicolon :: ts)
  | bare {statement : GqlStatement} {statements : List GqlStatement} {ts : List Token}
    (h : Printed statements ts) : Printed (statement :: statements) (statement.tokens ++ ts)

/-! ## What can be printed -/

/-- An expression the parser reads back: it has tokens, and does not nest too deep. -/
structure Expression.Readable (e : Expression) : Prop where
  printable : Printable e
  nest : e.nest ≤ maxExprDepth

/-- No two nodes stand side by side. -/
def PathPattern.Alternates (p : PathPattern) : Prop :=
  p.elements.IsChain fun a b => a.asNode.isNone ∨ b.asNode.isNone

def PatternElement.properties : PatternElement → List (String × Expression)
  | .node n => n.properties
  | .edge e => e.properties

structure PathPattern.Readable (p : PathPattern) : Prop where
  alternates : p.Alternates
  properties : ∀ element ∈ p.elements, ∀ entry ∈ element.properties, entry.2.Readable

/-- The star alone may be returned, though it is no expression. -/
def ReturnItem.Readable (item : ReturnItem) : Prop :=
  item.expression = .identifier "*" ∨ item.expression.Readable

/-- An identifier with a chain of property accesses. -/
inductive IsTarget : Expression → Prop where
  | identifier (name : String) : IsTarget (.identifier name)
  | propertyAccess {object : Expression} (h : IsTarget object) (property : String) :
    IsTarget (.propertyAccess object property)

/-- All properties are set of a variable only; on a property access it would be read otherwise. -/
inductive SetItem.Readable : SetItem → Prop where
  | property {target value : Expression} (h : IsTarget target) (property : String)
    (hv : value.Readable) : Readable (.property target property value)
  | label {target : Expression} (h : IsTarget target) (label : String) :
    Readable (.label target label)
  | allProperties (name : String) {value : Expression} (hv : value.Readable) :
    Readable (.allProperties (.identifier name) value)

structure LimitOffsetClause.Readable (c : LimitOffsetClause) : Prop where
  limit : ∀ e ∈ c.limit, e.Readable
  offset : ∀ e ∈ c.offset, e.Readable
  some : c.limit.isSome ∨ c.offset.isSome

/-- The clauses behind a projection. -/
structure TailReadable (orderBy : Option (List OrderByItem)) (limitOffset : Option LimitOffsetClause) :
    Prop where
  orderBy : ∀ items ∈ orderBy, items ≠ [] ∧ ∀ item ∈ items, item.expression.Readable
  limitOffset : ∀ c ∈ limitOffset, c.Readable

namespace GqlStatement

/-- The statements whose tokens keep everything. -/
inductive Readable : GqlStatement → Prop where
  | matchStmt {paths : List PathPattern} {whereClause : Option Expression} (hne : paths ≠ [])
    (hp : ∀ path ∈ paths, path.Readable) (hw : ∀ e ∈ whereClause, e.Readable) :
    Readable (.matchStmt ⟨none, paths, whereClause⟩)
  | returnStmt (distinct : Bool) {items : List ReturnItem} {orderBy : Option (List OrderByItem)}
    {limitOffset : Option LimitOffsetClause} (hne : items ≠ []) (hi : ∀ item ∈ items, item.Readable)
    (ht : TailReadable orderBy limitOffset) :
    Readable (.returnStmt ⟨distinct, items, orderBy, limitOffset⟩)
  | withStmt (distinct : Bool) {items : List ReturnItem} {whereClause : Option Expression}
    {orderBy : Option (List OrderByItem)} {limitOffset : Option LimitOffsetClause} (hne : items ≠ [])
    (hi : ∀ item ∈ items, item.Readable) (hw : ∀ e ∈ whereClause, e.Readable)
    (ht : TailReadable orderBy limitOffset) :
    Readable (.withStmt ⟨distinct, items, whereClause, orderBy, limitOffset⟩)
  | insert {patterns : List PathPattern} (hne : patterns ≠ []) (hp : ∀ path ∈ patterns, path.Readable) :
    Readable (.insert patterns)
  | set {items : List SetItem} (hne : items ≠ []) (hi : ∀ item ∈ items, item.Readable) :
    Readable (.set items)
  | delete (detach : Bool) {targets : List Expression} (hne : targets ≠ [])
    (ht : ∀ e ∈ targets, e.Readable) : Readable (.delete detach targets)
  | call (procedure : String) {arguments : List Expression} {yieldItems : Option (List String)}
    (ha : ∀ e ∈ arguments, e.Readable) (hy : yieldItems ≠ some []) :
    Readable (.call procedure arguments yieldItems)
  | createGraph (name : String) (ifNotExists : Bool) : Readable (.createGraph name ifNotExists)
  | dropGraph (name : String) (ifExists : Bool) : Readable (.dropGraph name ifExists)
  | createIndex (name : String) (unique : Bool) (label : Option String) {propertyNames : List String}
    (hne : propertyNames ≠ []) : Readable (.createIndex ⟨name, unique, "node", label, propertyNames⟩)
  | dropIndex (name : String) : Readable (.dropIndex name)
  | listGraphs : Readable .listGraphs

end GqlStatement

end Synaptica.Gql
