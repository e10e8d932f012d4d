import Synaptica.Lib.Journal
import Synaptica.Storage.Encoding
import Synaptica.Storage.RocksDb

/-!
# The storage engine

`StorageEngine`: nodes, edges and graph metadata over RocksDB. Each entity is stored once under its
data key and again, by key only, in the indexes that find it: a node under each of its labels, an
edge under its source, its target and its label.

Reads are functions of the database. Calls that write are `StorageM` computations, whose journal has
one entry for each `DB::write`, `put_cf` or `delete_cf` they perform. The column families the engine
asks for are the ones it opened, so looking them up does not fail.
-/

namespace Synaptica.Storage

inductive StorageError where
  | internal (msg : String)
  | serialization (msg : String)
  | deserialization (msg : String)
  | notFound (msg : String)
  | uniqueViolation (msg : String)
  | io (msg : String)
  | backup (msg : String)
  deriving DecidableEq, Repr

abbrev StorageResult := Except StorageError

instance : Writable Db WriteBatch where
  write := Db.write

abbrev StorageM := Journaled Db WriteBatch StorageError

/-- `DB::put_cf`, a write of its own. -/
def putCf (cf : ColumnFamily) (key value : Bytes) : StorageM Unit :=
  Journaled.write [.put cf key value]

/-- `DB::delete_cf`, a write of its own. -/
def deleteCf (cf : ColumnFamily) (key : Bytes) : StorageM Unit :=
  Journaled.write [.delete cf key]

/-- `serialize_value(..).map_err(StorageError::Serialization)`. -/
def serializeValue {α : Type} (c : Codec α) (a : α) : StorageResult Bytes :=
  (c.serialize a).mapError .serialization

/-- `deserialize_value(..).map_err(StorageError::Deserialization)`. -/
def deserializeValue {α : Type} (c : Codec α) (b : Bytes) : StorageResult α :=
  (c.deserialize b).mapError .deserialization

theorem serializeValue_eq_ok {α : Type} {c : Codec α} {a : α} {b : Bytes} :
    serializeValue c a = .ok b ↔ c.serialize a = .ok b := by
  rw [serializeValue]
  cases c.serialize a <;> simp [Except.mapError]

theorem deserializeValue_eq_ok {α : Type} {c : Codec α} {b : Bytes} {a : α} :
    deserializeValue c b = .ok a ↔ c.deserialize b = .ok a := by
  rw [deserializeValue]
  cases c.deserialize b <;> simp [Except.mapError]

/-- The identifier at the end of an index key. -/
def decodeIdSuffix (msg : String) (key : Bytes) : StorageResult Uuid :=
  match Uuid.fromSlice (idSuffix key) with
  | some u => .ok u
  | none => .error (.deserialization msg)

namespace StorageEngine

open OrderedMap (scan)

variable (bin : Bincode)

/-! ## Graph metadata -/

def putGraphMeta (graphMeta : GraphMeta) : StorageM Unit := do
  let value ← Journaled.read fun _ => serializeValue bin.graphMeta graphMeta
  putCf .graphMeta (encodeGraphMetaKey graphMeta.id) value

def getGraphMeta (db : Db) (graphId : GraphId) : StorageResult GraphMeta :=
  match (db .graphMeta)[encodeGraphMetaKey graphId]? with
  | none => .error (.notFound ("graph " ++ graphId.uuid.toString))
  | some value => deserializeValue bin.graphMeta value

/-- Entries that do not decode are passed over. -/
def listGraphs (db : Db) : List GraphMeta :=
  (db .graphMeta).toList.filterMap fun e => (bin.graphMeta.deserialize e.2).toOption

/-- The column families `delete_graph` clears, in its order. -/
def dataCfs : List ColumnFamily :=
  [.nodes, .edges, .adjOut, .adjIn, .nodeLabels, .edgeLabels, .propIndex]

/-- One round of `delete_graph`: delete the block of `keyPrefix` in one batch, unless it is empty. -/
def clearBlock (cf : ColumnFamily) (keyPrefix : Bytes) : StorageM Unit := do
  let batch ← Journaled.read fun db =>
    .ok ((scan (db cf) keyPrefix).map fun e => WriteOp.delete cf e.1)
  if batch.length > 0 then Journaled.write batch

/-- Delete a graph and all its data across all column families. -/
def deleteGraph (graphId : GraphId) : StorageM Unit := do
  dataCfs.forM fun cf => clearBlock cf graphId.asBytes
  deleteCf .graphMeta (encodeGraphMetaKey graphId)

/-! ## Nodes -/

/-- The labels the stored version of a node has and the new one lacks. -/
def staleLabels (db : Db) (node : Node) : StorageResult (List Label) :=
  match (db .nodes)[encodeNodeKey node.graphId node.id]? with
  | none => .ok []
  | some oldData => do
    let oldNode ← deserializeValue bin.node oldData
    pure (oldNode.labels.toList.filter fun l => !node.labels.contains l)

/-- Drop the stale label entries, store the node, index its labels. -/
def putNodeBatch (node : Node) (stale : List Label) (value : Bytes) : WriteBatch :=
  (stale.map fun l => .delete .nodeLabels (encodeNodeLabelKey node.graphId l node.id)) ++
  .put .nodes (encodeNodeKey node.graphId node.id) value ::
  node.labels.toList.map fun l => .put .nodeLabels (encodeNodeLabelKey node.graphId l node.id) []

/-- Insert or update a node. -/
def putNode (node : Node) : StorageM Unit := do
  let stale ← Journaled.read fun db => staleLabels bin db node
  let value ← Journaled.read fun _ => serializeValue bin.node node
  Journaled.write (putNodeBatch node stale value)

def getNode (db : Db) (graphId : GraphId) (nodeId : NodeId) : StorageResult Node :=
  match (db .nodes)[encodeNodeKey graphId nodeId]? with
  | none => .error (.notFound ("node " ++ nodeId.uuid.toString))
  | some value => deserializeValue bin.node value

def scanNodes (db : Db) (graphId : GraphId) : StorageResult (List Node) :=
  (scan (db .nodes) (encodeNodePrefix graphId)).mapM fun e => deserializeValue bin.node e.2

/-- Each entry of the label's block names a node, which is then fetched. -/
def scanNodesByLabel (db : Db) (graphId : GraphId) (label : Label) : StorageResult (List Node) :=
  (scan (db .nodeLabels) (encodeNodeLabelPrefix graphId label)).mapM fun e => do
    let id ← decodeIdSuffix "invalid node id in label index" e.1
    getNode bin db graphId ⟨id⟩

/-- The loop stops once `limit` nodes were read, before it decodes the next entry. -/
def scanNodesLimit (db : Db) (graphId : GraphId) (limit : Nat) : StorageResult (List Node) :=
  if limit = 0 then .ok []
  else ((scan (db .nodes) (encodeNodePrefix graphId)).take limit).mapM fun e =>
    deserializeValue bin.node e.2

/-! ## Edges -/

/-- The edge stored under the identifier, when its entries are not those of the new one. -/
def staleEdge (db : Db) (edge : Edge) : StorageResult (Option Edge) :=
  match (db .edges)[encodeEdgeKey edge.graphId edge.id]? with
  | none => .ok none
  | some oldData => do
    let oldEdge ← deserializeValue bin.edge oldData
    pure <|
      if oldEdge.source ≠ edge.source ∨ oldEdge.target ≠ edge.target ∨ oldEdge.label ≠ edge.label then
        some oldEdge
      else none

/-- The adjacency and label entries of an edge, deleted. -/
def dropEdgeEntries (graphId : GraphId) (edgeId : EdgeId) (edge : Edge) : WriteBatch :=
  [.delete .adjOut (encodeAdjOutKey graphId edge.source edge.label edgeId),
    .delete .adjIn (encodeAdjInKey graphId edge.target edge.label edgeId),
    .delete .edgeLabels (encodeEdgeLabelKey graphId edge.label edgeId)]

/-- Drop the stale entries, store the edge, write its adjacency and label entries. -/
def putEdgeBatch (edge : Edge) (stale : Option Edge) (value : Bytes) : WriteBatch :=
  (match stale with
    | some oldEdge => dropEdgeEntries edge.graphId edge.id oldEdge
    | none => []) ++
  [.put .edges (encodeEdgeKey edge.graphId edge.id) value,
    .put .adjOut (encodeAdjOutKey edge.graphId edge.source edge.label edge.id) edge.target.asBytes,
    .put .adjIn (encodeAdjInKey edge.graphId edge.target edge.label edge.id) edge.source.asBytes,
    .put .edgeLabels (encodeEdgeLabelKey edge.graphId edge.label edge.id) []]

/-- Insert or update an edge with adjacency indexes. -/
def putEdge (edge : Edge) : StorageM Unit := do
  let stale ← Journaled.read fun db => staleEdge bin db edge
  let value ← Journaled.read fun _ => serializeValue bin.edge edge
  Journaled.write (putEdgeBatch edge stale value)

def getEdge (db : Db) (graphId : GraphId) (edgeId : EdgeId) : StorageResult Edge :=
  match (db .edges)[encodeEdgeKey graphId edgeId]? with
  | none => .error (.notFound ("edge " ++ edgeId.uuid.toString))
  | some value => deserializeValue bin.edge value

/-- Delete an edge and its adjacency and label entries, in one batch. -/
def deleteEdge (graphId : GraphId) (edgeId : EdgeId) : StorageM Unit := do
  let edge ← Journaled.read fun db => getEdge bin db graphId edgeId
  Journaled.write
    (.delete .edges (encodeEdgeKey graphId edgeId) :: dropEdgeEntries graphId edgeId edge)

def scanEdges (db : Db) (graphId : GraphId) : StorageResult (List Edge) :=
  (scan (db .edges) (encodeEdgePrefix graphId)).mapM fun e => deserializeValue bin.edge e.2

def scanEdgesLimit (db : Db) (graphId : GraphId) (limit : Nat) : StorageResult (List Edge) :=
  if limit = 0 then .ok []
  else ((scan (db .edges) (encodeEdgePrefix graphId)).take limit).mapM fun e =>
    deserializeValue bin.edge e.2

/-- The common loop of the two adjacency reads: the edges named by the block of `keyPrefix`. -/
def adjacentEdges (db : Db) (graphId : GraphId) (cf : ColumnFamily) (keyPrefix : Bytes) :
    StorageResult (List Edge) :=
  (scan (db cf) keyPrefix).mapM fun e => do
    let id ← decodeIdSuffix "invalid edge id in adj index" e.1
    getEdge bin db graphId ⟨id⟩

def getOutgoingEdges (db : Db) (graphId : GraphId) (source : NodeId) (labelFilter : Option Label) :
    StorageResult (List Edge) :=
  adjacentEdges bin db graphId .adjOut <|
    match labelFilter with
    | some label => encodeAdjOutLabelPrefix graphId source label
    | none => encodeAdjOutPrefix graphId source

def getIncomingEdges (db : Db) (graphId : GraphId) (target : NodeId) (labelFilter : Option Label) :
    StorageResult (List Edge) :=
  adjacentEdges bin db graphId .adjIn <|
    match labelFilter with
    | some label => encodeAdjInLabelPrefix graphId target label
    | none => encodeAdjInPrefix graphId target

/-- The loop of `delete_node` over the connected edges: each identifier is deleted once. -/
def deleteConnected (graphId : GraphId) (seen : List EdgeId) : List Edge → StorageM Unit
  | [] => pure ()
  | edge :: edges =>
    if edge.id ∈ seen then deleteConnected graphId seen edges
    else do
      deleteEdge bin graphId edge.id
      deleteConnected graphId (edge.id :: seen) edges

/-- Delete the node and its label entries. -/
def deleteNodeBatch (graphId : GraphId) (nodeId : NodeId) (node : Node) : WriteBatch :=
  .delete .nodes (encodeNodeKey graphId nodeId) ::
  node.labels.toList.map fun l => .delete .nodeLabels (encodeNodeLabelKey graphId l nodeId)

/-- Delete a node, its label entries, and all connected edges: one batch an edge, then one for the
node. -/
def deleteNode (graphId : GraphId) (nodeId : NodeId) : StorageM Unit := do
  let node ← Journaled.read fun db => getNode bin db graphId nodeId
  let outgoing ← Journaled.read fun db => getOutgoingEdges bin db graphId nodeId none
  let incoming ← Journaled.read fun db => getIncomingEdges bin db graphId nodeId none
  deleteConnected bin graphId [] (outgoing ++ incoming)
  Journaled.write (deleteNodeBatch graphId nodeId node)

/-! ## Export -/

/-- `format_properties_for_export`. -/
def formatPropertiesForExport (f : Formats) (props : Properties) : String :=
  if props.isEmpty then ""
  else "\x7b" ++ ", ".intercalate (Value.displayEntries f props.toList) ++ "\x7d"

/-- The line of a node, with its identifier as a synthetic `_id` property. -/
def exportNode (f : Formats) (node : Node) : String :=
  let labels := String.join (node.labels.toList.map fun l => ":" ++ l.name)
  let props := node.properties.insert "_id" (.string node.id.uuid.toString)
  "INSERT (" ++ labels ++ " " ++ formatPropertiesForExport f props ++ ")\n"

/-- The line of an edge, matching its endpoints by `_id`. -/
def exportEdge (f : Formats) (edge : Edge) : String :=
  let props :=
    if edge.properties.isEmpty then "" else " " ++ formatPropertiesForExport f edge.properties
  "MATCH (a \x7b_id: '" ++ edge.source.uuid.toString ++ "'\x7d), (b \x7b_id: '"
    ++ edge.target.uuid.toString ++ "'\x7d) INSERT (a)-[:" ++ edge.label.name ++ props ++ "]->(b)\n"

/-- The text written and the number of entities in it. -/
def exportGraph (f : Formats) (db : Db) (graphId : GraphId) : StorageResult (String × Nat) := do
  let nodes ← scanNodes bin db graphId
  let edges ← scanEdges bin db graphId
  pure (String.join (nodes.map (exportNode f) ++ edges.map (exportEdge f)),
    nodes.length + edges.length)

end StorageEngine

end Synaptica.Storage
