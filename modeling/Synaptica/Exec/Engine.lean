import Synaptica.Exec.Operators
import Synaptica.Gql.Planner
import Synaptica.Lib.Process

/-!
# The execution engine

`synaptica_exec::engine`: a plan is executed against a store, one storage call at a time. Each call
is one atomic step of a process over the database, so that a plan can be run alone or interleaved
with another one. What is not determined by the store is drawn: the UUID of a new node or edge, and
the order in which a hash set is iterated.
-/

namespace Synaptica.Exec

open Gql Storage

/-! ## The execution monad -/

/-- Mutation counts for one program execution. -/
structure ExecStats where
  nodesCreated : Nat
  nodesDeleted : Nat
  edgesCreated : Nat
  edgesDeleted : Nat
  propertiesSet : Nat
  deriving DecidableEq, Repr

/-- `ExecutionEngine::add_stats`, over all the counts that were reported. -/
def ExecStats.total (reports : List ExecStats) : ExecStats :=
  reports.foldl (fun a b => ⟨a.nodesCreated + b.nodesCreated, a.nodesDeleted + b.nodesDeleted,
    a.edgesCreated + b.edgesCreated, a.edgesDeleted + b.edgesDeleted,
    a.propertiesSet + b.propertiesSet⟩) ⟨0, 0, 0, 0, 0⟩

/-- One draw: a random UUID, or the order of a hash set of keys. -/
structure Draw where
  uuid : Uuid
  order : List String → List String
  perm : ∀ keys, (order keys).Perm keys

abbrev ExecM := Process Db Draw ExecStats ExecError

/-- `fmt::Display for StorageError`. -/
def displayStorageError : StorageError → String
  | .internal msg => "storage internal error: " ++ msg
  | .serialization msg => "serialization error: " ++ msg
  | .deserialization msg => "deserialization error: " ++ msg
  | .notFound msg => "not found: " ++ msg
  | .uniqueViolation msg => "unique constraint violation: " ++ msg
  | .io msg => "IO error: " ++ msg
  | .backup msg => "backup error: " ++ msg

/-- `From<StorageError> for ExecError`. -/
def asStorageError (e : StorageError) : ExecError := .storageError (displayStorageError e)

/-- `.map_err(|e| ExecError::Internal(e.to_string()))`. -/
def asInternal (e : StorageError) : ExecError := .internal (displayStorageError e)

/-- A storage call that only reads. -/
def query {α : Type} (f : Db → StorageResult α) (wrap : StorageError → ExecError) : ExecM α :=
  .read fun db => (f db).mapError wrap

/-- A storage call that only reads, whose error the caller looks at. -/
def tryQuery {α : Type} (f : Db → StorageResult α) : ExecM (StorageResult α) :=
  .read fun db => .ok (f db)

/-- A storage call that writes. -/
def call {α : Type} (m : StorageM α) (wrap : StorageError → ExecError) : ExecM α :=
  .atomic m.exec fun db => (m db).result.mapError wrap

/-- A storage call whose error is dropped. -/
def callIgnored {α : Type} (m : StorageM α) : ExecM Unit := .atomic m.exec fun _ => .ok ()

variable (env : Env) (graphId : GraphId)

/-- `Uuid::parse_str(..).map_err(..)`. -/
def parseId (what s : String) : ExecM Uuid :=
  match env.parseUuid s with
  | .ok u => pure u
  | .error e => .fail (.internal (what ++ e))

/-! ## Scan and expand -/

/-- The keys in the order a hash set happens to yield them. -/
def hashOrder (keys : List String) : ExecM (List String) := do
  let draw ← Process.drawn
  pure (draw.order keys)

/-- The nodes of a scan: by the first label, then all labels are required. -/
def scanWith (db : Db) (labels : List String) : StorageResult (List Node) :=
  match labels with
  | [] => StorageEngine.scanNodes env.rt.bin db graphId
  | label :: _ => do
    let result ← StorageEngine.scanNodesByLabel env.rt.bin db graphId ⟨label⟩
    pure (if labels.length > 1 then result.filter fun n => labels.all (hasLabel n) else result)

def execScan (labels : List String) (var : Option String) : ExecM ResultSet := do
  let nodes ← query (fun db => scanWith env graphId db labels) asStorageError
  let allKeys ← hashOrder (keySet (nodes.map (·.properties)))
  pure (nodeResultSet allKeys var nodes)

/-- The edges at a node in the given direction. A self-loop is taken once. -/
def edgesAt (nodeId : NodeId) (direction : Direction) (label : Option Label) : ExecM (List Edge) := do
  let outgoing := query (fun db =>
    StorageEngine.getOutgoingEdges env.rt.bin db graphId nodeId label) asStorageError
  let incoming := query (fun db =>
    StorageEngine.getIncomingEdges env.rt.bin db graphId nodeId label) asStorageError
  match direction with
  | .outgoing => outgoing
  | .incoming => incoming
  | .undirected => do
    let edges ← outgoing
    let more ← incoming
    pure (edges ++ more.filter fun e => !(edges.map (·.id)).contains e.id)

/-- The other end of an edge, seen from `nodeId`. -/
def neighbour (nodeId : NodeId) (direction : Direction) (edge : Edge) : NodeId :=
  match direction with
  | .incoming => edge.source
  | .outgoing => edge.target
  | .undirected => if edge.source = nodeId then edge.target else edge.source

/-- The edges whose other end is stored and has one of the required labels. -/
def expandEdges (nodeId : NodeId) (direction : Direction) (targetLabels : List String)
    (sourceValues : List Value) : List Edge → ExecM (List ExpandRow)
  | [] => pure []
  | edge :: edges => do
    let target ← tryQuery fun db =>
      StorageEngine.getNode env.rt.bin db graphId (neighbour nodeId direction edge)
    let rest ← expandEdges nodeId direction targetLabels sourceValues edges
    match target with
    | .ok node =>
      if targetLabels.isEmpty || targetLabels.any (hasLabel node) then
        pure (⟨sourceValues, edge, node⟩ :: rest)
      else pure rest
    | .error _ => pure rest

def expandRecords (direction : Direction) (label : Option Label) (targetLabels : List String) :
    List Record → ExecM (List ExpandRow)
  | [] => pure []
  | record :: records => do
    let idStr ← .ofExcept <|
      match (record.get "__node_id").bind Value.asStr with
      | some s => .ok s
      | none => .error (.internal "missing __node_id in expand input")
    let uuid ← parseId env "invalid node id: " idStr
    let edges ← edgesAt env graphId ⟨uuid⟩ direction label
    let rows ← expandEdges env graphId ⟨uuid⟩ direction targetLabels record.values edges
    let rest ← expandRecords direction label targetLabels records
    pure (rows ++ rest)

def execExpand (input : ResultSet) (edgeLabel : String) (direction : Direction)
    (targetLabels : List String) (edgeVar targetVar : Option String) : ExecM ResultSet := do
  let label := if edgeLabel.isEmpty then none else some ⟨edgeLabel⟩
  let rows ← expandRecords env graphId direction label targetLabels input.records
  let targetKeys ← hashOrder (keySet (rows.map (·.target.properties)))
  let edgeKeys ← hashOrder (keySet (rows.map (·.edge.properties)))
  pure (expandResultSet input.columns edgeKeys targetKeys edgeVar targetVar rows)

/-! ## Index maintenance -/

/-- The definition indexes this node: it is a node index over one of its properties. -/
def covers (index : IndexDefinition) (node : Node) : Bool :=
  index.entityType = .node && index.propertyNames.any node.properties.contains

/-- Apply an index write for each definition that covers the node; errors are dropped. -/
def maintain (write : IndexDefinition → Node → StorageM Unit) (node : Node) :
    List IndexDefinition → ExecM Unit
  | [] => pure ()
  | index :: indexes => do
    if covers index node then callIgnored (write index node)
    maintain write node indexes

/-- The common body of the two hooks: nothing happens when the definitions cannot be listed. -/
def maintainIndexes (write : IndexDefinition → Node → StorageM Unit) (node : Node) : ExecM Unit := do
  match ← tryQuery fun db => IndexManager.listIndexes env.rt db graphId with
  | .ok indexes => maintain write node indexes
  | .error _ => pure ()

def indexNodeOnWrite (node : Node) : ExecM Unit :=
  maintainIndexes env graphId (IndexManager.indexNode env.rt) node

def unindexNodeOnDelete (node : Node) : ExecM Unit :=
  maintainIndexes env graphId (IndexManager.unindexNode env.rt) node

/-! ## Create -/

/-- Evaluate the properties of a new entity, on an empty record. -/
def evaluateProperties (properties : List (String × Expression)) : Except ExecError Properties :=
  evaluateEntries env ⟨[], []⟩ ∅ properties

def execCreateNode (labels : List String) (properties : List (String × Expression)) :
    ExecM ResultSet := do
  let draw ← Process.drawn
  let props ← .ofExcept (evaluateProperties env properties)
  let node : Node := ⟨⟨draw.uuid⟩, graphId, Std.ExtTreeSet.ofList (labels.map .mk) _, props⟩
  call (StorageEngine.putNode env.rt.bin node) asStorageError
  .report ⟨1, 0, 0, 0, 0⟩
  indexNodeOnWrite env graphId node
  pure (.ofRows ["__node_id"] [[.string node.id.uuid.toString]])

/-- The id an endpoint variable stands for: the node it is bound to, or its own id column. -/
def endpointId (record : Record) (var : String) : Option String :=
  ((record.get var).bind Value.asNodeId).or
    ((record.get (var ++ ".__node_id")).bind Value.asStr)

/-- The id of the source, which falls back to the row's node id. -/
def sourceId (record : Record) (var : String) : Option String :=
  (endpointId record var).or ((record.get "__node_id").bind Value.asStr)

def resolveEndpoint (what var : String) : Option String → ExecM String
  | some s => pure s
  | none => .fail (.internal ("cannot resolve " ++ what ++ " node from variable '" ++ var ++ "'"))

/-- One row of `exec_create_edge_from_match`. -/
def createEdgeRow (sourceVar targetVar label : String) (properties : List (String × Expression))
    (record : Record) : ExecM (List Value) := do
  let sourceStr ← resolveEndpoint "source" sourceVar (sourceId record sourceVar)
  let targetStr ← resolveEndpoint "target" targetVar (endpointId record targetVar)
  let source ← parseId env "invalid source UUID: " sourceStr
  let target ← parseId env "invalid target UUID: " targetStr
  let draw ← Process.drawn
  let props ← .ofExcept (evaluateProperties env properties)
  let edge : Edge := ⟨⟨draw.uuid⟩, graphId, ⟨source⟩, ⟨target⟩, ⟨label⟩, props⟩
  call (StorageEngine.putEdge env.rt.bin edge) asStorageError
  .report ⟨0, 0, 1, 0, 0⟩
  pure [.string edge.id.uuid.toString]

def createEdgeRows (sourceVar targetVar label : String) (properties : List (String × Expression)) :
    List Record → ExecM (List (List Value))
  | [] => pure []
  | record :: records => do
    let row ← createEdgeRow env graphId sourceVar targetVar label properties record
    let rows ← createEdgeRows sourceVar targetVar label properties records
    pure (row :: rows)

def execCreateEdgeFromMatch (input : ResultSet) (sourceVar targetVar label : String)
    (properties : List (String × Expression)) : ExecM ResultSet := do
  let rows ← createEdgeRows env graphId sourceVar targetVar label properties input.records
  pure (.ofRows ["__edge_id"] rows)

/-! ## Delete -/

/-- The values of a record that a `DELETE` looks at: its targets, or all of them. -/
def valuesToCheck (targets : List String) (record : Record) : List Value :=
  if targets.isEmpty then record.values else targets.filterMap record.get

/-- First pass: each edge once. -/
def deleteEdges (seen : List String) : List Value → ExecM Nat
  | [] => pure 0
  | .edge id _ _ _ _ :: values =>
    if id ∈ seen then deleteEdges seen values
    else do
      let uuid ← parseId env "invalid edge id: " id
      call (StorageEngine.deleteEdge env.rt.bin graphId ⟨uuid⟩) asInternal
      .report ⟨0, 0, 0, 1, 0⟩
      let deleted ← deleteEdges (id :: seen) values
      pure (deleted + 1)
  | _ :: values => deleteEdges seen values

def countIncidentEdges (nodeId : NodeId) : ExecM Nat := do
  let outgoing ← query (fun db =>
    StorageEngine.getOutgoingEdges env.rt.bin db graphId nodeId none) asStorageError
  let incoming ← query (fun db =>
    StorageEngine.getIncomingEdges env.rt.bin db graphId nodeId none) asStorageError
  pure ((outgoing ++ incoming).map (·.id)).dedup.length

/-- One node of the second pass. -/
def deleteOneNode (id : String) : ExecM Unit := do
  let uuid ← parseId env "invalid node id: " id
  match ← tryQuery fun db => StorageEngine.getNode env.rt.bin db graphId ⟨uuid⟩ with
  | .ok node => unindexNodeOnDelete env graphId node
  | .error _ => pure ()
  let incident ← countIncidentEdges env graphId ⟨uuid⟩
  call (StorageEngine.deleteNode env.rt.bin graphId ⟨uuid⟩) asInternal
  .report ⟨0, 1, 0, incident, 0⟩

/-- Second pass: each node once. -/
def deleteNodes (seen : List String) : List Value → ExecM Nat
  | [] => pure 0
  | .node id _ _ :: values =>
    if id ∈ seen then deleteNodes seen values
    else do
      deleteOneNode env graphId id
      let deleted ← deleteNodes (id :: seen) values
      pure (deleted + 1)
  | _ :: values => deleteNodes seen values

def execDeleteNodes (rs : ResultSet) (targets : List String) : ExecM ResultSet := do
  let values := rs.records.flatMap (valuesToCheck targets)
  let edges ← deleteEdges env graphId [] values
  let nodes ← deleteNodes env graphId [] values
  pure (.ofRows ["deleted"] [[.integer (Int64.ofNat (edges + nodes))]])

/-! ## Set -/

def setNodeProperty (id property : String) (val : Value) : ExecM Unit := do
  let uuid ← parseId env "invalid node id: " id
  let node ← query (fun db => StorageEngine.getNode env.rt.bin db graphId ⟨uuid⟩) asInternal
  unindexNodeOnDelete env graphId node
  let updated := { node with properties := node.properties.insert property val }
  call (StorageEngine.putNode env.rt.bin updated) asInternal
  indexNodeOnWrite env graphId updated
  .report ⟨0, 0, 0, 0, 1⟩

def setEdgeProperty (id property : String) (val : Value) : ExecM Unit := do
  let uuid ← parseId env "invalid edge id: " id
  let edge ← query (fun db => StorageEngine.getEdge env.rt.bin db graphId ⟨uuid⟩) asInternal
  call (StorageEngine.putEdge env.rt.bin
    { edge with properties := edge.properties.insert property val }) asInternal
  .report ⟨0, 0, 0, 0, 1⟩

/-- Set the property of each node and edge among the values; the number of them. -/
def setEntities (property : String) (val : Value) : List Value → ExecM Nat
  | [] => pure 0
  | .node id _ _ :: values => do
    setNodeProperty env graphId id property val
    let modified ← setEntities property val values
    pure (modified + 1)
  | .edge id _ _ _ _ :: values => do
    setEdgeProperty env graphId id property val
    let modified ← setEntities property val values
    pure (modified + 1)
  | _ :: values => setEntities property val values

/-- The values of a record that a `SET` assigns to: its target, or all of them. -/
def setTargets (target : Option String) (record : Record) : List Value :=
  match target with
  | some var => (record.get var).toList
  | none => record.values

def setRecords (target : Option String) (property : String) (value : Expression) :
    List Record → ExecM Nat
  | [] => pure 0
  | record :: records => do
    let val ← .ofExcept (evaluate env record value)
    let modified ← setEntities env graphId property val (setTargets target record)
    let rest ← setRecords target property value records
    pure (modified + rest)

def execSetProperty (rs : ResultSet) (target : Option String) (property : String)
    (value : Expression) : ExecM ResultSet := do
  let modified ← setRecords env graphId target property value rs.records
  pure (.ofRows ["modified"] [[.integer (Int64.ofNat modified)]])

/-! ## Indexes -/

/-- The nodes an index lookup found, in its order; those that are gone are passed over. -/
def loadNodes (labels : List String) : List NodeId → ExecM (List Node)
  | [] => pure []
  | id :: ids => do
    let found ← tryQuery fun db => StorageEngine.getNode env.rt.bin db graphId id
    let rest ← loadNodes labels ids
    match found with
    | .ok node => pure (if labels.all (hasLabel node) then node :: rest else rest)
    | .error _ => pure rest

def execIndexScan (indexName : String) (labels : List String) (var : Option String)
    (lookupValues : List Expression) (remaining : Option Expression) : ExecM ResultSet := do
  let indexes ← query (fun db => IndexManager.listIndexes env.rt db graphId) asStorageError
  let index ← .ofExcept <|
    match indexes.find? fun d => d.name == indexName with
    | some d => .ok d
    | none => .error (.internal ("index '" ++ indexName ++ "' not found"))
  let values ← .ofExcept (evaluateAll env ⟨[], []⟩ lookupValues)
  let ids ← query (fun db => IndexManager.lookup env.rt db index values) asStorageError
  let nodes ← loadNodes env graphId labels ids
  let allKeys ← hashOrder (keySet (nodes.map (·.properties)))
  let rs := nodeResultSet allKeys var nodes
  match remaining with
  | some predicate => .ofExcept (execFilter env rs predicate)
  | none => pure rs

/-- Index the nodes that have one of the properties; errors are dropped. -/
def backfill (index : IndexDefinition) : List Node → ExecM Unit
  | [] => pure ()
  | node :: nodes => do
    if index.propertyNames.any node.properties.contains then
      callIgnored (IndexManager.indexNode env.rt index node)
    backfill index nodes

def execCreateIndex (name : String) (unique : Bool) (entityType : String) (label : Option String)
    (propertyNames : List String) : ExecM ResultSet := do
  let index : IndexDefinition :=
    ⟨name, graphId, if entityType = "edge" then .edge else .node, propertyNames, unique⟩
  call (IndexManager.createIndex env.rt index) asStorageError
  if index.entityType = .node then
    let nodes ← query (fun db =>
      match label with
      | some l => StorageEngine.scanNodesByLabel env.rt.bin db graphId ⟨l⟩
      | none => StorageEngine.scanNodes env.rt.bin db graphId) asStorageError
    backfill env index nodes
  pure (.ofRows ["result"] [[.string ("Index '" ++ name ++ "' created (" ++
    toString propertyNames.length ++ " properties)")]])

def execDropIndex (name : String) : ExecM ResultSet := do
  call (IndexManager.dropIndex env.rt graphId name) asStorageError
  pure (.ofRows ["result"] [[.string ("Index '" ++ name ++ "' dropped")]])

/-! ## Graphs -/

/-- A one-line answer. -/
def message (text : String) : ResultSet := .ofRows ["result"] [[.string text]]

def execCreateGraph (name : String) (ifNotExists : Bool) : ExecM ResultSet := do
  let id := env.graphIdFromName name
  match ← tryQuery fun db => StorageEngine.getGraphMeta env.rt.bin db id with
  | .ok _ =>
    if ifNotExists then pure (message ("Graph '" ++ name ++ "' already exists"))
    else .fail (.storageError ("Graph '" ++ name ++ "' already exists"))
  | .error _ =>
    call (StorageEngine.putGraphMeta env.rt.bin ⟨id, name, none⟩) asStorageError
    pure (message ("Graph '" ++ name ++ "' created"))

def execDropGraph (name : String) (ifExists : Bool) : ExecM ResultSet := do
  let id := env.graphIdFromName name
  match ← tryQuery fun db => StorageEngine.getGraphMeta env.rt.bin db id with
  | .error _ =>
    if ifExists then pure (message ("Graph '" ++ name ++ "' does not exist"))
    else .fail (.storageError ("Graph '" ++ name ++ "' not found"))
  | .ok _ =>
    call (StorageEngine.deleteGraph id) asStorageError
    pure (message ("Graph '" ++ name ++ "' dropped"))

def execListGraphs : ExecM ResultSet := do
  let graphs ← query (fun db => .ok (StorageEngine.listGraphs env.rt.bin db)) asStorageError
  pure (.ofRows ["name", "id"]
    (graphs.map fun g => [.string g.name, .string g.id.uuid.toString]))

/-! ## Procedures -/

/-- The outgoing edges of each node, one call a node. -/
def outgoingOfAll : List Node → ExecM (List Edge)
  | [] => pure []
  | node :: nodes => do
    let edges ← query (fun db =>
      StorageEngine.getOutgoingEdges env.rt.bin db graphId node.id none) asStorageError
    let rest ← outgoingOfAll nodes
    pure (edges ++ rest)

/-- A `BTreeSet` of texts, as values in order. -/
def sortedTexts (texts : List String) : List Value :=
  (Std.ExtTreeSet.ofList texts (compare : String → String → Ordering)).toList.map .string

def nodeLabelTexts (nodes : List Node) : List String :=
  nodes.flatMap fun n => n.labels.toList.map (·.name)

def propertyTexts (nodes : List Node) (edges : List Edge) : List String :=
  (nodes.flatMap fun n => n.properties.toList.map (·.1)) ++
    edges.flatMap fun e => e.properties.toList.map (·.1)

/-- The result of a built-in procedure, before `YIELD`. -/
def procedureResult (procedure : String) : ExecM ResultSet := do
  let scan := query (fun db => StorageEngine.scanNodes env.rt.bin db graphId) asStorageError
  match procedure with
  | "db.labels" => do
    let nodes ← scan
    pure (.ofRows ["label"] ((sortedTexts (nodeLabelTexts nodes)).map ([·])))
  | "db.relationshipTypes" | "db.edgeTypes" => do
    let nodes ← scan
    let edges ← outgoingOfAll env graphId nodes
    pure (.ofRows ["relationshipType"] ((sortedTexts (edges.map (·.label.name))).map ([·])))
  | "db.propertyKeys" => do
    let nodes ← scan
    let edges ← outgoingOfAll env graphId nodes
    pure (.ofRows ["propertyKey"] ((sortedTexts (propertyTexts nodes edges)).map ([·])))
  | "db.schema" => do
    let nodes ← scan
    let edges ← outgoingOfAll env graphId nodes
    pure (.ofRows ["labels", "relationshipTypes", "propertyKeys"]
      [[.list (sortedTexts (nodeLabelTexts nodes)), .list (sortedTexts (edges.map (·.label.name))),
        .list (sortedTexts (propertyTexts nodes edges))]])
  | "db.nodeCount" => do
    let nodes ← scan
    pure (.ofRows ["count"] [[.integer (Int64.ofNat nodes.length)]])
  | "db.edgeCount" => do
    let nodes ← scan
    let edges ← outgoingOfAll env graphId nodes
    pure (.ofRows ["count"] [[.integer (Int64.ofNat edges.length)]])
  | _ => .fail (.notImplemented ("procedure: " ++ procedure))

def execCallProcedure (procedure : String) (yieldItems : Option (List String)) : ExecM ResultSet := do
  let result ← procedureResult env graphId procedure
  match yieldItems with
  | some items =>
    pure (.ofRows items (result.records.map fun record =>
      items.map fun name =>
        ((result.columnIndex name).bind fun i => record.values[i]?).getD .null))
  | none => pure result

/-! ## Optimizer -/

/-- `extract_property_name`: `v.prop`, or an identifier in the column format `v.prop`. -/
def extractPropertyName (var : Option String) : Expression → Option String
  | .propertyAccess (.identifier name) property =>
    if var.all (· == name) then some property else none
  | .identifier name =>
    var.bind fun v =>
      if (v ++ ".").isPrefixOf name then some (String.ofList (name.toList.drop (v.length + 1)))
      else none
  | _ => none

def isLiteralExpr : Expression → Bool
  | .literal _ => true
  | _ => false

/-- The property and literal of an equality that an index could serve. -/
def eqPredicate (var : Option String) (left right : Expression) : Option (String × Expression) :=
  match extractPropertyName var left with
  | some prop =>
    if isLiteralExpr right then some (prop, right)
    else if isLiteralExpr left then (extractPropertyName var right).map (·, left)
    else none
  | none => if isLiteralExpr left then (extractPropertyName var right).map (·, left) else none

/-- Extract `variable.property = literal` equality predicates from an AND chain; the other conjuncts
come second. -/
def extractEqPredicates (var : Option String) :
    Expression → List (String × Expression) × List Expression
  | .binaryOp left .and right =>
    let l := extractEqPredicates var left
    let r := extractEqPredicates var right
    (l.1 ++ r.1, l.2 ++ r.2)
  | .binaryOp left .eq right =>
    match eqPredicate var left right with
    | some p => ([p], [])
    | none => ([], [.binaryOp left .eq right])
  | expr => ([], [expr])

def rebuildEqPredicate (var : Option String) (prop : String) (val : Expression) : Expression :=
  .binaryOp
    (match var with
      | some v => .propertyAccess (.identifier v) prop
      | none => .identifier prop)
    .eq val

/-- Fold the conjuncts back into one predicate. -/
def conjunction : List Expression → Option Expression
  | [] => none
  | first :: rest => some (rest.foldl (fun a b => .binaryOp a .and b) first)

/-- The positions of the equalities that serve the properties of an index, if all are served. -/
def coveredBy (eqs : List (String × Expression)) (propertyNames : List String) : Option (List Nat) :=
  propertyNames.mapM fun name => eqs.findIdx? fun e => e.1 == name

/-- The scan through one index, when all its properties have an equality. -/
def indexScanFor (labels : List String) (var : Option String) (eqs : List (String × Expression))
    (others : List Expression) (index : IndexDefinition) : Option LogicalPlan :=
  if index.entityType ≠ .node then none
  else
    match coveredBy eqs index.propertyNames with
    | none | some [] => none
    | some used =>
      let unused := (eqs.zipIdx.filter fun e => !used.contains e.2).map (·.1)
      some (.indexScan index.name labels var index.propertyNames
        (used.filterMap fun i => (eqs[i]?).map (·.2))
        (conjunction (unused.map (fun e => rebuildEqPredicate var e.1 e.2) ++ others)))

/-- Try to convert a filtered scan into an index scan by finding an index that matches equality
predicates. -/
def tryIndexScan (indexes : List IndexDefinition) (labels : List String) (var : Option String)
    (predicate : Expression) : Option LogicalPlan :=
  let (eqs, others) := extractEqPredicates var predicate
  indexes.findSome? (indexScanFor labels var eqs others)

/-- What becomes of a filter over an optimized input. -/
def optimizeFilter (input : LogicalPlan) (predicate : Expression) : ExecM LogicalPlan :=
  match input with
  | .scan labels graph var => do
    match ← tryQuery fun db => IndexManager.listIndexes env.rt db graphId with
    | .ok indexes =>
      pure ((tryIndexScan indexes labels var predicate).getD
        (.filter (.scan labels graph var) predicate))
    | .error _ => pure (.filter (.scan labels graph var) predicate)
  | _ => pure (.filter input predicate)

/-- Optimize a plan tree: detect filtered scans where an index can serve the equality predicates. -/
def optimize : LogicalPlan → ExecM LogicalPlan
  | .filter input predicate => do
    let input ← optimize input
    optimizeFilter env graphId input predicate
  | .project input expressions aliases => do
    let input ← optimize input
    pure (.project input expressions aliases)
  | .sort input orderBy => do
    let input ← optimize input
    pure (.sort input orderBy)
  | .limit input count offset => do
    let input ← optimize input
    pure (.limit input count offset)
  | .distinct input => do
    let input ← optimize input
    pure (.distinct input)
  | .expand input edgeLabel direction targetLabels edgeVar targetVar => do
    let input ← optimize input
    pure (.expand input edgeLabel direction targetLabels edgeVar targetVar)
  | .deleteNode input targets detach => do
    let input ← optimize input
    pure (.deleteNode input targets detach)
  | .setProperty input target property value => do
    let input ← optimize input
    pure (.setProperty input target property value)
  | .join left right => do
    let left ← optimize left
    let right ← optimize right
    pure (.join left right)
  | other => pure other

/-! ## Plans and programs -/

def executeNode : LogicalPlan → ExecM ResultSet
  | .scan labels _ var => execScan env graphId labels var
  | .filter input predicate => do
    let rs ← executeNode input
    .ofExcept (execFilter env rs predicate)
  | .project input expressions aliases => do
    let rs ← executeNode input
    .ofExcept (execProject env rs expressions aliases)
  | .limit input count offset => do
    let rs ← executeNode input
    pure (execLimit rs count offset)
  | .sort input orderBy => do
    let rs ← executeNode input
    .ofExcept (execSort env rs orderBy)
  | .createNode labels properties => execCreateNode env graphId labels properties
  | .join left right => do
    let leftRs ← executeNode left
    let rightRs ← executeNode right
    pure (execJoin env leftRs rightRs)
  | .createEdgeFromMatch input sourceVar targetVar label properties => do
    let rs ← executeNode input
    execCreateEdgeFromMatch env graphId rs sourceVar targetVar label properties
  | .empty => pure (.ofRows [] [])
  | .callProcedure procedure _ yieldItems => execCallProcedure env graphId procedure yieldItems
  | .expand input edgeLabel direction targetLabels edgeVar targetVar => do
    let rs ← executeNode input
    execExpand env graphId rs edgeLabel direction targetLabels edgeVar targetVar
  | .deleteNode input targets _ => do
    let rs ← executeNode input
    execDeleteNodes env graphId rs targets
  | .setProperty input target property value => do
    let rs ← executeNode input
    execSetProperty env graphId rs target property value
  | .distinct input => do
    let rs ← executeNode input
    pure (execDistinct env rs)
  | .indexScan indexName labels var _ lookupValues remaining =>
    execIndexScan env graphId indexName labels var lookupValues remaining
  | .createIndex name unique entityType label propertyNames =>
    execCreateIndex env graphId name unique entityType label propertyNames
  | .dropIndex name => execDropIndex env graphId name
  | .createGraph name ifNotExists => execCreateGraph env name ifNotExists
  | .dropGraph name ifExists => execDropGraph env name ifExists
  | .listGraphs => execListGraphs env
  | .aggregate .. => .fail (.notImplemented (discriminant 5))
  | .createEdge .. => .fail (.notImplemented (discriminant 10))
  | .union .. => .fail (.notImplemented (discriminant 13))

/-- `execute_plan_with`: optimize, then execute. -/
def executePlan (plan : LogicalPlan) : ExecM ResultSet := do
  let optimized ← optimize env graphId plan
  executeNode env graphId optimized

/-- `fmt::Display for ExecError`. -/
def ExecError.display : ExecError → String
  | notImplemented msg => "not implemented: " ++ msg
  | storageError msg => "storage error: " ++ msg
  | typeError msg => "type error: " ++ msg
  | expressionError msg => "expression error: " ++ msg
  | internal msg => "internal error: " ++ msg

/-- Failure of a program, split so callers can keep plan and execution errors distinct. -/
inductive ProgramError where
  | plan (msg : String)
  | execution (msg : String)
  deriving DecidableEq, Repr

/-- Plan and execute a parsed GQL program. -/
def executeProgram (program : GqlProgram) : Process Db Draw ExecStats ProgramError ResultSet :=
  match QueryPlanner.plan program with
  | .error e => .fail (.plan e.display)
  | .ok plan => (executePlan env graphId plan).mapError fun e => .execution e.display

end Synaptica.Exec
