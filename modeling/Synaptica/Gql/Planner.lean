import Synaptica.Gql.Ast

/-!
# The query planner

`synaptica_gql::planner`: a program becomes one tree of logical operators. The planner goes through
the statements in order and carries one plan along; each statement wraps that plan, uses it in the
place of a scan, or starts a new one.
-/

namespace Synaptica.Gql

/-- A logical query plan node. -/
inductive LogicalPlan where
  | scan (labels : List String) (graphId : Option String) (var : Option String)
  | filter (input : LogicalPlan) (predicate : Expression)
  | project (input : LogicalPlan) (expressions : List Expression) (aliases : List (Option String))
  | expand (input : LogicalPlan) (edgeLabel : String) (direction : Direction)
      (targetLabels : List String) (edgeVariable targetVariable : Option String)
  | join (left right : LogicalPlan)
  | aggregate (input : LogicalPlan) (groupBy aggregates : List Expression)
  | sort (input : LogicalPlan) (orderBy : List (Expression × SortDirection))
  | limit (input : LogicalPlan) (count offset : Option UInt64)
  | distinct (input : LogicalPlan)
  | createNode (labels : List String) (properties : List (String × Expression))
  | createEdge (label : String) (source target : LogicalPlan)
      (properties : List (String × Expression))
  | deleteNode (input : LogicalPlan) (targets : List String) (detach : Bool)
  | setProperty (input : LogicalPlan) (target : Option String) (property : String)
      (value : Expression)
  | union (left right : LogicalPlan) (all : Bool)
  | callProcedure (procedure : String) (arguments : List Expression)
      (yieldItems : Option (List String))
  | empty
  | createEdgeFromMatch (input : LogicalPlan) (sourceVar targetVar label : String)
      (properties : List (String × Expression))
  | indexScan (indexName : String) (labels : List String) (var : Option String)
      (lookupProperties : List String) (lookupValues : List Expression)
      (remainingPredicate : Option Expression)
  | createIndex (name : String) (unique : Bool) (entityType : String) (label : Option String)
      (propertyNames : List String)
  | dropIndex (name : String)
  | createGraph (name : String) (ifNotExists : Bool)
  | dropGraph (name : String) (ifExists : Bool)
  | listGraphs

inductive PlanError where
  | unsupportedStatement
  | internal (msg : String)
  deriving DecidableEq, Repr

/-- `fmt::Display for PlanError`. -/
def PlanError.display : PlanError → String
  | unsupportedStatement => "unsupported statement kind"
  | internal msg => "planning error: " ++ msg

namespace QueryPlanner

/-- If an ORDER BY expression is an identifier matching a RETURN alias, replace it with the original
expression so the sort (which runs before the projection) can evaluate it. -/
def resolveOrderAlias (expr : Expression) (items : List ReturnItem) : Expression :=
  match expr with
  | .identifier name =>
    match items.find? fun item => item.aliasName == some name with
    | some item => item.expression
    | none => expr
  | _ => expr

/-- Wrap a plan with filters for inline property constraints. -/
def applyInlinePropertyFilters (plan : LogicalPlan) (properties : List (String × Expression))
    (var : Option String) : LogicalPlan :=
  properties.foldl (fun plan p =>
    .filter plan (.binaryOp (.propertyAccess (.identifier (var.getD "")) p.1) .eq p.2)) plan

/-- The start of a path: the plan so far when there is one and the pattern names a variable, a scan
otherwise. -/
def scanOrInput (input : Option LogicalPlan) (graph : Option String) (labels : List String)
    (var : Option String) : LogicalPlan :=
  match input, var with
  | some plan, some _ => plan
  | _, _ => .scan labels graph var

/-- One expand step for each edge, paired with the node pattern behind it if there is one. -/
def expandPath (plan : LogicalPlan) : List EdgePattern → List NodePattern → LogicalPlan
  | [], _ => plan
  | edge :: edges, nodes =>
    let target := nodes.head?
    let expanded : LogicalPlan := .expand plan (edge.labels.head?.getD "") edge.direction
      ((target.map (·.labels)).getD []) edge.var (target.bind (·.var))
    let filtered := applyInlinePropertyFilters expanded edge.properties edge.var
    expandPath
      (match target with
        | some node => applyInlinePropertyFilters filtered node.properties node.var
        | none => filtered)
      edges nodes.tail

/-- The plan of one path pattern of a `MATCH`. -/
def planPath (input : Option LogicalPlan) (graph : Option String) (path : PathPattern) :
    Except PlanError LogicalPlan :=
  let nodes := path.elements.filterMap PatternElement.asNode
  let edges := path.elements.filterMap PatternElement.asEdge
  if edges.isEmpty then
    let var := (nodes.filterMap (·.var)).head?
    .ok (applyInlinePropertyFilters
      (scanOrInput input graph (nodes.flatMap (·.labels)) var)
      (nodes.flatMap (·.properties)) var)
  else
    match nodes with
    | [] => .error (.internal "edge pattern missing source node")
    | source :: targets =>
      .ok (expandPath
        (applyInlinePropertyFilters (scanOrInput input graph source.labels source.var)
          source.properties source.var)
        edges targets)

/-- One plan per path pattern, combined with joins; `scans.remove(0)` panics on an empty pattern,
which the grammar excludes. -/
def planMatch (m : MatchStatement) (input : Option LogicalPlan) : Except PlanError LogicalPlan := do
  let scans ← m.paths.mapM (planPath input m.graph)
  match scans with
  | [] => .error (.internal "removal index (is 0) should be < len (is 0)")
  | first :: rest =>
    let plan := rest.foldl .join first
    pure (match m.whereClause with
      | some condition => .filter plan condition
      | none => plan)

/-- The count of a `LIMIT` or `OFFSET`: an integer literal, cast to `u64`. -/
def literalCount : Expression → Option UInt64
  | .literal (.integer n) => some n.toUInt64
  | _ => none

def applyLimitOffset (plan : LogicalPlan) : Option LimitOffsetClause → LogicalPlan
  | some lo => .limit plan (lo.limit.bind literalCount) (lo.offset.bind literalCount)
  | none => plan

def planReturn (r : ReturnStatement) (input : Option LogicalPlan) : LogicalPlan :=
  let base := input.getD .empty
  let sorted : LogicalPlan :=
    match r.orderBy with
    | some items =>
      .sort base (items.map fun i => (resolveOrderAlias i.expression r.items, i.direction))
    | none => base
  let projected : LogicalPlan :=
    .project sorted (r.items.map (·.expression)) (r.items.map (·.aliasName))
  applyLimitOffset (if r.distinct then .distinct projected else projected) r.limitOffset

def planWith (w : WithStatement) (input : Option LogicalPlan) : LogicalPlan :=
  let base := input.getD .empty
  let projected : LogicalPlan := .project base (w.items.map (·.expression)) (w.items.map (·.aliasName))
  let distinct := if w.distinct then .distinct projected else projected
  let filtered :=
    match w.whereClause with
    | some condition => .filter distinct condition
    | none => distinct
  let sorted :=
    match w.orderBy with
    | some items => .sort filtered (items.map fun i => (i.expression, i.direction))
    | none => filtered
  applyLimitOffset sorted w.limitOffset

/-- An `INSERT` with an edge creates edges between bound variables; any other one creates a node
from its first node pattern. -/
def planInsert (patterns : List PathPattern) (input : Option LogicalPlan) :
    Except PlanError LogicalPlan :=
  let elements := patterns.flatMap (·.elements)
  let nodes := elements.filterMap PatternElement.asNode
  let edges := elements.filterMap PatternElement.asEdge
  match edges, input with
  | edge :: _, some base =>
    let bound := nodes.filterMap (·.var)
    match bound with
    | [] => .error (.internal "edge INSERT requires source node variable")
    | [_] => .error (.internal "edge INSERT requires target node variable")
    | sourceVar :: targetVar :: _ =>
      match edge.labels with
      | [] => .error (.internal "edge INSERT requires a label")
      | label :: _ => .ok (.createEdgeFromMatch base sourceVar targetVar label edge.properties)
  | _, _ =>
    match nodes with
    | [] => .error (.internal "INSERT requires at least one node pattern")
    | node :: _ => .ok (.createNode node.labels node.properties)

def identifierName : Expression → Option String
  | .identifier name => some name
  | _ => none

/-- Each item of a `SET` wraps the plan of the items before it. -/
def planSetItem (plan : LogicalPlan) : SetItem → Except PlanError LogicalPlan
  | .property target property value =>
    .ok (.setProperty plan (identifierName target) property value)
  | _ => .error (.internal "unsupported SET item")

def planStatement (stmt : GqlStatement) (input : Option LogicalPlan) :
    Except PlanError LogicalPlan :=
  match stmt with
  | .matchStmt m => planMatch m input
  | .returnStmt r => .ok (planReturn r input)
  | .insert patterns => planInsert patterns input
  | .withStmt w => .ok (planWith w input)
  | .call procedure arguments yieldItems => .ok (.callProcedure procedure arguments yieldItems)
  | .delete detach targets =>
    match input with
    | none => .error (.internal "DELETE requires a preceding MATCH")
    | some base => .ok (.deleteNode base (targets.filterMap identifierName) detach)
  | .set items =>
    match input with
    | none => .error (.internal "SET requires a preceding MATCH")
    | some base => items.foldlM planSetItem base
  | .createIndex c => .ok (.createIndex c.name c.unique c.entityType c.label c.propertyNames)
  | .dropIndex name => .ok (.dropIndex name)
  | .createGraph name ifNotExists => .ok (.createGraph name ifNotExists)
  | .dropGraph name ifExists => .ok (.dropGraph name ifExists)
  | .listGraphs => .ok .listGraphs
  | .remove | .createGraphType | .compositeQuery => .error .unsupportedStatement

/-- The loop of `plan`: one plan is threaded through the statements. -/
def planFrom : Option LogicalPlan → List GqlStatement → Except PlanError (Option LogicalPlan)
  | current, [] => .ok current
  | current, stmt :: stmts => do
    let plan ← planStatement stmt current
    planFrom (some plan) stmts

/-- Plan a complete GQL program. -/
def plan (program : GqlProgram) : Except PlanError LogicalPlan := do
  let current ← planFrom none program.statements
  pure (current.getD .empty)

end QueryPlanner

end Synaptica.Gql
