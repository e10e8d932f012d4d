import Synaptica.Exec.Expression

/-!
# Row operators

The part of `ExecutionEngine` that works on result sets alone: how nodes become rows, and filter,
project, aggregate, sort, limit, join and distinct.
-/

namespace Synaptica.Exec

open Gql

variable (env : Env)

/-! ## Nodes and edges as rows -/

/-- A property, NULL when it is missing. -/
def propertyOrNull (properties : Properties) (key : String) : Value :=
  (properties[key]?).getD .null

/-- The value a variable is bound to for a node. -/
def nodeValue (node : Node) : Value :=
  .node node.id.uuid.toString (node.labels.toList.map (·.name)) node.properties.toList

/-- The value a variable is bound to for an edge. -/
def edgeValue (edge : Edge) : Value :=
  .edge edge.id.uuid.toString edge.label.name edge.source.uuid.toString edge.target.uuid.toString
    edge.properties.toList

/-- The keys of several property maps, each once. -/
def keySet (props : List Properties) : List String :=
  (props.flatMap fun p => p.toList.map (·.1)).dedup

/-- A variable's own column, then one for each property. -/
def variableColumns (keys : List String) : Option String → List String
  | some var => var :: keys.map fun key => var ++ "." ++ key
  | none => []

/-- Internal columns, the bare property keys, and the columns of the variable. -/
def nodeColumns (keys : List String) (var : Option String) : List String :=
  ["__node_id", "__labels"] ++ keys ++ variableColumns keys var

def nodeRow (keys : List String) (var : Option String) (node : Node) : List Value :=
  let props := keys.map (propertyOrNull node.properties)
  [.string node.id.uuid.toString, .list (node.labels.toList.map fun l => .string l.name)] ++ props ++
    (if var.isSome then nodeValue node :: props else [])

/-- The result set of a scan. -/
def nodeResultSet (keys : List String) (var : Option String) (nodes : List Node) : ResultSet :=
  .ofRows (nodeColumns keys var) (nodes.map (nodeRow keys var))

/-- `Node::has_label`. -/
def hasLabel (node : Node) (label : String) : Bool := node.labels.contains ⟨label⟩

/-- One row of an expand step: the source row, the edge and the node behind it. -/
structure ExpandRow where
  sourceValues : List Value
  edge : Edge
  target : Node

/-- The values of an expanded row. The internal node id moves to the target for chained
traversals. -/
def expandValues (nodeIdCol : Option Nat) (edgeKeys targetKeys : List String)
    (edgeVar targetVar : Option String) (row : ExpandRow) : List Value :=
  let withEdge := row.sourceValues ++
    (if edgeVar.isSome then
      edgeValue row.edge :: edgeKeys.map (propertyOrNull row.edge.properties) else [])
  if targetVar.isSome then
    let extended := withEdge ++
      nodeValue row.target :: targetKeys.map (propertyOrNull row.target.properties)
    match nodeIdCol with
    | some i => extended.set i (.string row.target.id.uuid.toString)
    | none => extended
  else withEdge

def expandResultSet (columns : List String) (edgeKeys targetKeys : List String)
    (edgeVar targetVar : Option String) (rows : List ExpandRow) : ResultSet :=
  let allColumns := columns ++ variableColumns edgeKeys edgeVar ++ variableColumns targetKeys targetVar
  .ofRows allColumns
    (rows.map (expandValues (allColumns.idxOf? "__node_id") edgeKeys targetKeys edgeVar targetVar))

/-! ## Filter -/

/-- The records whose predicate is true. -/
def filterRecords (predicate : Expression) : List Record → Except ExecError (List Record)
  | [] => .ok []
  | record :: records => do
    let val ← evaluate env record predicate
    let rest ← filterRecords predicate records
    pure (if val = .bool true then record :: rest else rest)

def execFilter (input : ResultSet) (predicate : Expression) : Except ExecError ResultSet := do
  let records ← filterRecords env predicate input.records
  pure (.ofRows input.columns (records.map (·.values)))

/-! ## Project -/

/-- `expr_column_name`. -/
def exprColumnName (idx : Nat) : Expression → String
  | .identifier name => name
  | .propertyAccess object property => exprColumnName idx object ++ "." ++ property
  | _ => "col_" ++ toString idx

/-- The output columns: the alias of an item, or the name of its expression. -/
def projectColumns (expressions : List Expression) (aliases : List (Option String)) : List String :=
  expressions.zipIdx.map fun e => ((aliases[e.2]?).join).getD (exprColumnName e.2 e.1)

mutual

/-- `contains_aggregate`: only below operators and function calls. -/
def containsAggregate : Expression → Bool
  | .aggregate .. => true
  | .binaryOp left _ right => containsAggregate left || containsAggregate right
  | .unaryOp _ operand => containsAggregate operand
  | .functionCall _ args => anyContainsAggregate args
  | _ => false

def anyContainsAggregate : List Expression → Bool
  | [] => false
  | expr :: exprs => containsAggregate expr || anyContainsAggregate exprs

end

/-- Internal columns of the input that are not projected explicitly. -/
def internalColumns (input : List String) (columns : List String) : List String :=
  input.filter fun c => c.startsWith "__" && !columns.contains c

/-- One projected row: the expressions, then the internal columns. -/
def projectRow (expressions : List Expression) (internal : List (Option Nat)) (record : Record) :
    Except ExecError (List Value) := do
  let values ← evaluateAll env record expressions
  pure (values ++ internal.map fun idx => (idx.bind fun i => record.values[i]?).getD .null)

def projectRows (expressions : List Expression) (internal : List (Option Nat)) :
    List Record → Except ExecError (List (List Value))
  | [] => .ok []
  | record :: records => do
    let row ← projectRow env expressions internal record
    let rows ← projectRows expressions internal records
    pure (row :: rows)

/-! ### Aggregation -/

/-- The text that identifies a group: the debug form of each grouping value. -/
def groupKey (groupExprs : List Expression) (record : Record) : Except ExecError String := do
  let vals ← evaluateAll env record groupExprs
  pure (String.join (vals.map fun v => v.debug env.debug ++ "|"))

/-- The records under each group key, in order of arrival. -/
def groupRecords (groupExprs : List Expression) (groups : OrderedMap String (List Record)) :
    List Record → Except ExecError (OrderedMap String (List Record))
  | [] => .ok groups
  | record :: records => do
    let key ← groupKey env groupExprs record
    groupRecords groupExprs (groups.insert key ((groups[key]?).getD [] ++ [record])) records

/-- The argument of an aggregate on each record; a missing argument contributes nothing. -/
def aggregateArgs (arg : Option Expression) (records : List Record) : Except ExecError (List Value) :=
  match arg with
  | some inner => records.mapM fun r => evaluate env r inner
  | none => .ok []

/-- The values a `COUNT` counts: those that evaluate, and not to NULL. -/
def countedValues (arg : Expression) (records : List Record) : List Value :=
  records.filterMap fun r =>
    match evaluate env r arg with
    | .ok v => if v = .null then none else some v
    | .error _ => none

/-- `SUM`: an integer total that wraps, and a float total once a float was seen. -/
def sumValues (vals : List Value) : Value :=
  let step (acc : Int64 × Bool × UInt64) (v : Value) : Int64 × Bool × UInt64 :=
    match v with
    | .integer n => (acc.1 + n, acc.2.1, F64.add acc.2.2 (F64.ofInt64 n))
    | .float f => (acc.1, true, F64.add acc.2.2 f)
    | _ => acc
  let (total, hasFloat, ftotal) := vals.foldl step (0, false, 0)
  if hasFloat then .float ftotal else .integer total

/-- `AVG` over the numeric values. -/
def avgValues (vals : List Value) : Value :=
  let numbers := vals.filterMap fun
    | .integer n => some (F64.ofInt64 n)
    | .float f => some f
    | _ => none
  if numbers.isEmpty then .null
  else .float (F64.div (numbers.foldl F64.add 0) (F64.ofInt64 (Int64.ofNat numbers.length)))

/-- `v` beats the extremum so far: both are integers, floats or strings, and in the given order. -/
def beats (ord : Ordering) (v best : Value) : Bool :=
  match v, best with
  | .integer a, .integer b => compare a b == ord
  | .float a, .float b => F64.partialCmp a b == some ord
  | .string a, .string b => compare a b == ord
  | _, _ => false

/-- `MIN` and `MAX`: NULL is replaced by whatever comes next. -/
def extremum (ord : Ordering) (vals : List Value) : Value :=
  vals.foldl (fun best v => if best = .null ∨ beats ord v best then v else best) .null

/-- The value of one aggregate over the records of a group. -/
def aggregateValue (function : AggregateFunction) (distinct : Bool) (arg : Option Expression)
    (records : List Record) : Except ExecError Value :=
  match function with
  | .count =>
    match arg with
    | none => .ok (.integer (Int64.ofNat records.length))
    | some inner =>
      let vals := countedValues env inner records
      .ok (.integer (Int64.ofNat
        (if distinct then (vals.map fun v => v.debug env.debug).dedup.length else vals.length)))
  | .sum => sumValues <$> aggregateArgs env arg records
  | .avg => avgValues <$> aggregateArgs env arg records
  | .min => extremum .lt <$> aggregateArgs env arg records
  | .max => extremum .gt <$> aggregateArgs env arg records
  | .collect => Value.list <$> aggregateArgs env arg records
  | .stdDev | .percentile => .ok .null

/-- One output value of a group: an aggregate over it, or the expression on its first record. -/
def groupValue (first : Record) (records : List Record) : Expression → Except ExecError Value
  | .aggregate function distinct arg => aggregateValue env function distinct arg records
  | expr => evaluate env first expr

/-- The value of an aggregate over no rows at all. -/
def emptyAggregate : Expression → Value
  | .aggregate .count .. | .aggregate .sum .. => .integer 0
  | .aggregate .collect .. => .list []
  | _ => .null

def execProjectWithAggregation (input : ResultSet) (expressions : List Expression)
    (aliases : List (Option String)) : Except ExecError ResultSet := do
  let columns := projectColumns expressions aliases
  let groupExprs := expressions.filter fun e => !containsAggregate e
  let groups ← groupRecords env groupExprs ∅ input.records
  if groups.isEmpty && groupExprs.isEmpty then
    pure (.ofRows columns [expressions.map emptyAggregate])
  else do
    let rows ← groups.toList.mapM fun group =>
      match group.2 with
      | first :: rest => expressions.mapM (groupValue env first (first :: rest))
      | [] => .ok []
    pure (.ofRows columns rows)

def execProject (input : ResultSet) (expressions : List Expression)
    (aliases : List (Option String)) : Except ExecError ResultSet :=
  if anyContainsAggregate expressions then execProjectWithAggregation env input expressions aliases
  else
    let columns := projectColumns expressions aliases
    let internal := internalColumns input.columns columns
    if input.records.isEmpty && input.columns.isEmpty then do
      -- standalone RETURN without MATCH: one row
      let values ← evaluateAll env ⟨[], []⟩ expressions
      pure (.ofRows (columns ++ internal) [values])
    else do
      let rows ← projectRows env expressions (internal.map input.columnIndex) input.records
      pure (.ofRows (columns ++ internal) rows)

/-! ## Limit and sort -/

def execLimit (input : ResultSet) (count offset : Option UInt64) : ResultSet :=
  let skipped := input.records.drop ((offset.getD 0).toNat)
  let taken :=
    match count with
    | some c => skipped.take c.toNat
    | none => skipped
  .ofRows input.columns (taken.map (·.values))

/-- `cmp_values`. -/
def cmpValues (a b : Value) : Ordering :=
  match a, b with
  | .null, .null => .eq
  | .null, _ => .lt
  | _, .null => .gt
  | .integer x, .integer y => compare x y
  | .float x, .float y => (F64.partialCmp x y).getD .eq
  | .integer x, .float y => (F64.partialCmp (F64.ofInt64 x) y).getD .eq
  | .float x, .integer y => (F64.partialCmp x (F64.ofInt64 y)).getD .eq
  | .string x, .string y => compare x y
  | .bool x, .bool y => compare x y
  | _, _ => .eq

/-- The comparator of `exec_sort` on two records: the first key that tells them apart. -/
def compareRecords (a b : Record) : List (Expression × SortDirection) → Except ExecError Ordering
  | [] => .ok .eq
  | (expr, dir) :: keys => do
    let va ← evaluate env a expr
    let vb ← evaluate env b expr
    match cmpValues va vb, dir with
    | .eq, _ => compareRecords a b keys
    | ord, .desc => pure ord.swap
    | ord, .asc => pure ord

/-- Insert a record behind the last one that is not greater, from the end; the sorted part is
reversed. Once a comparison has failed, records compare equal. -/
def insertTail (keys : List (Expression × SortDirection)) (record : Record) :
    Option ExecError → List Record → Option ExecError × List Record
  | err, [] => (err, [record])
  | some e, last :: sorted => (some e, record :: last :: sorted)
  | none, last :: sorted =>
    match compareRecords env record last keys with
    | .error e => (some e, record :: last :: sorted)
    | .ok .lt =>
      let inserted := insertTail keys record none sorted
      (inserted.1, last :: inserted.2)
    | .ok _ => (none, record :: last :: sorted)

/-- `slice::sort_by`, a stable sort, as the insertion it uses on short slices. -/
def sortRecords (keys : List (Expression × SortDirection)) (records : List Record) :
    Option ExecError × List Record :=
  let sorted := records.foldl (fun acc r => insertTail env keys r acc.1 acc.2) (none, [])
  (sorted.1, sorted.2.reverse)

def execSort (input : ResultSet) (orderBy : List (Expression × SortDirection)) :
    Except ExecError ResultSet :=
  match sortRecords env orderBy input.records with
  | (some e, _) => .error e
  | (none, records) => .ok ⟨input.columns, records⟩

/-! ## Join and distinct -/

def execCrossJoin (left right : ResultSet) : ResultSet :=
  .ofRows (left.columns ++ right.columns)
    (left.records.flatMap fun l => right.records.map fun r => l.values ++ r.values)

/-- The pairs of positions of shared variable-prefixed columns. -/
def sharedColumns (left right : List String) : List (Nat × Nat) :=
  left.zipIdx.filterMap fun c =>
    if !c.1.contains '.' || c.1.startsWith "__" then none
    else (right.idxOf? c.1).map fun ri => (c.2, ri)

/-- The hash key of a row: the debug text of each shared value, each closed by a byte that no text
contains. -/
def joinKey (positions : List Nat) (record : Record) : Bytes :=
  positions.flatMap fun i => utf8 (((record.values[i]?).getD .null).debug env.debug) ++ [0xFF]

def execJoin (left right : ResultSet) : ResultSet :=
  let shared := sharedColumns left.columns right.columns
  if shared.isEmpty then execCrossJoin left right
  else
    let keep := (List.range right.columns.length).filter fun ri => !(shared.any fun s => s.2 == ri)
    .ofRows (left.columns ++ keep.filterMap (right.columns[·]?))
      (left.records.flatMap fun l =>
        (right.records.filter fun r =>
          joinKey env (shared.map (·.2)) r == joinKey env (shared.map (·.1)) l).map fun r =>
            l.values ++ keep.map fun ri => (r.values[ri]?).getD .null)

/-- The text by which `DISTINCT` compares a row: its user columns. -/
def distinctKey (columns : List String) (record : Record) : String :=
  "|".intercalate ((columns.zipIdx.filter fun c => !c.1.startsWith "__").map fun c =>
    ((record.values[c.2]?).getD .null).debug env.debug)

/-- The first record of each key. -/
def distinctRecords (columns : List String) (seen : List String) : List Record → List Record
  | [] => []
  | record :: records =>
    let key := distinctKey env columns record
    if key ∈ seen then distinctRecords columns seen records
    else record :: distinctRecords columns (key :: seen) records

def execDistinct (rs : ResultSet) : ResultSet :=
  .ofRows rs.columns ((distinctRecords env rs.columns [] rs.records).map (·.values))

end Synaptica.Exec
