import Synaptica.Storage.Engine

/-!
# Property and full-text indexes

`IndexManager` and `FullTextIndex` share one column family with three key layouts, told apart by the
byte after the graph's identifier:

* `graph_id ++ 00 ++ name` — the definition of a property index;
* `graph_id ++ 01 ++ hash(name) ++ values ++ node_id` — an entry of a property index;
* `graph_id ++ 02 ++ hash(name) ++ token ++ 00 ++ node_id` — a posting of a full-text index.

The hash of an index name and the Unicode tables are the standard library's; they are parameters.
-/

namespace Synaptica.Storage

open BigEndian
open OrderedMap (scan seek)

/-- What the store takes from outside the repository. -/
structure Runtime where
  bin : Bincode
  /-- `DefaultHasher` on a name. -/
  hash : String → UInt64
  /-- `str::to_lowercase`. -/
  toLowercase : String → String
  /-- `char::is_alphanumeric`. -/
  isAlphanumeric : Char → Bool
  formats : Formats

variable (rt : Runtime)

/-- `hash_index_name`. -/
def hashIndexName (name : String) : Bytes := beBytes 8 (rt.hash name).toNat

/-! ## Comparable values -/

/-- `f >= 0.0`, on the bits of `f`: not a NaN, and either positive or the negative zero. -/
def f64IsNonNegative (bits : UInt64) : Bool :=
  let magnitude := bits &&& 0x7FFFFFFFFFFFFFFF
  magnitude ≤ 0x7FF0000000000000 && (bits < 0x8000000000000000 || magnitude == 0)

/-- The body of a string key: NUL is escaped, and two NULs end it. -/
def escapeString (s : String) : Bytes :=
  ((utf8 s).flatMap fun b => if b = 0 then [0, 1] else [b]) ++ [0, 0]

/-- `encode_value_comparable`. -/
def encodeValueComparable : Value → Bytes
  | .null => [0x00]
  | .bool b => [0x01, if b then 1 else 0]
  | .integer i =>
    match beBytes 8 i.toUInt64.toNat with
    | first :: rest => 0x02 :: (first ^^^ 0x80) :: rest
    | [] => [0x02]
  | .float bits =>
    let encoded := if f64IsNonNegative bits then bits ^^^ 0x8000000000000000 else ~~~ bits
    0x03 :: beBytes 8 encoded.toNat
  | .string s => 0x04 :: escapeString s
  | other =>
    -- the remaining types are length-prefixed, and empty when they do not serialize
    match rt.bin.value.serialize other with
    | .ok serialized => 0xFF :: beBytes 4 serialized.length ++ serialized
    | .error _ => 0xFF :: beBytes 4 0

def encodeValues (values : List Value) : Bytes := values.flatMap (encodeValueComparable rt)

/-- `encode_properties`: a missing property is indexed as NULL. -/
def encodeProperties (index : IndexDefinition) (node : Node) : Bytes :=
  encodeValues rt (index.propertyNames.map fun name => (node.getProperty name).getD .null)

/-- The node identifiers at the end of entries long enough to have one. -/
def entryIds (msg : String) (entries : List (Bytes × Bytes)) : StorageResult (List NodeId) :=
  (entries.filter fun e => 16 ≤ e.1.length).mapM fun e => do
    let id ← decodeIdSuffix msg e.1
    pure ⟨id⟩

namespace IndexManager

/-! ## Property indexes -/

def metaKey (graphId : GraphId) (name : String) : Bytes := graphId.asBytes ++ 0x00 :: utf8 name

def metaPrefix (graphId : GraphId) : Bytes := graphId.asBytes ++ [0x00]

def entryPrefix (index : IndexDefinition) : Bytes :=
  index.graphId.asBytes ++ 0x01 :: hashIndexName rt index.name

def entryValuePrefix (index : IndexDefinition) (encodedVals : Bytes) : Bytes :=
  entryPrefix rt index ++ encodedVals

def entryKey (index : IndexDefinition) (encodedVals : Bytes) (entityId : NodeId) : Bytes :=
  entryPrefix rt index ++ encodedVals ++ entityId.asBytes

/-- Store index metadata. -/
def createIndex (index : IndexDefinition) : StorageM Unit := do
  let value ← Journaled.read fun _ => serializeValue rt.bin.indexDefinition index
  putCf .propIndex (metaKey index.graphId index.name) value

/-- Remove index metadata, then all entries in one batch. -/
def dropIndex (graphId : GraphId) (name : String) : StorageM Unit := do
  deleteCf .propIndex (metaKey graphId name)
  let temp : IndexDefinition := ⟨name, graphId, .node, [], false⟩
  let batch ← Journaled.read fun db =>
    .ok ((scan (db .propIndex) (entryPrefix rt temp)).map fun e => WriteOp.delete .propIndex e.1)
  Journaled.write batch

/-- Another node is indexed under the same values. -/
def hasDuplicate (db : Db) (index : IndexDefinition) (node : Node) : Bool :=
  (scan (db .propIndex) (entryValuePrefix rt index (encodeProperties rt index node))).any fun e =>
    decide (16 ≤ e.1.length) && idSuffix e.1 != node.id.asBytes

/-- Create an index entry for a node, enforcing uniqueness when required. -/
def indexNode (index : IndexDefinition) (node : Node) : StorageM Unit := do
  let encoded := encodeProperties rt index node
  if index.unique then
    let duplicate ← Journaled.read fun db => .ok (hasDuplicate rt db index node)
    if duplicate then
      Journaled.read fun _ => .error (.uniqueViolation
        ("index '" ++ index.name ++ "': duplicate value for node " ++ node.id.uuid.toString))
    else putCf .propIndex (entryKey rt index encoded node.id) []
  else putCf .propIndex (entryKey rt index encoded node.id) []

/-- Remove an index entry for a node. -/
def unindexNode (index : IndexDefinition) (node : Node) : StorageM Unit :=
  deleteCf .propIndex (entryKey rt index (encodeProperties rt index node) node.id)

/-- Exact-match lookup returning all matching node IDs. -/
def lookup (db : Db) (index : IndexDefinition) (values : List Value) : StorageResult (List NodeId) :=
  entryIds "invalid node id"
    (scan (db .propIndex) (entryValuePrefix rt index (encodeValues rt values)))

/-- Node IDs with `start <= value < end`, by the order of the encoded keys. -/
def rangeScan (db : Db) (index : IndexDefinition) (start stop : Value) :
    StorageResult (List NodeId) :=
  let idxPrefix := entryPrefix rt index
  let startKey := idxPrefix ++ encodeValues rt [start]
  let endKey := idxPrefix ++ encodeValues rt [stop]
  entryIds "invalid node id" <| (seek (db .propIndex) startKey).takeWhile fun e =>
    decide (idxPrefix <+: e.1 ∧ e.1 < endKey)

/-- List all index definitions stored for a graph. -/
def listIndexes (db : Db) (graphId : GraphId) : StorageResult (List IndexDefinition) :=
  (scan (db .propIndex) (metaPrefix graphId)).mapM fun e =>
    deserializeValue rt.bin.indexDefinition e.2

end IndexManager

/-! ## Full-text indexes -/

/-- `tokenize`: lower-case, split on what is not alphanumeric, drop tokens shorter than two bytes. -/
def tokenize (text : String) : OrderedSet String :=
  let words := ((rt.toLowercase text).toList.splitOnP fun c => !rt.isAlphanumeric c).map String.ofList
  Std.ExtTreeSet.ofList (words.filter fun t => 2 ≤ (utf8 t).length) _

/-- An inverted index over one property of a graph. -/
structure FullTextIndex where
  graphId : GraphId
  indexName : String
  propertyName : String

namespace FullTextIndex

variable (ft : FullTextIndex)

def namePrefix : Bytes := ft.graphId.asBytes ++ 0x02 :: hashIndexName rt ft.indexName

def entryKey (token : String) (nodeId : NodeId) : Bytes :=
  namePrefix rt ft ++ utf8 token ++ 0x00 :: nodeId.asBytes

/-- The separator at the end makes it match one token exactly. -/
def tokenPrefix (token : String) : Bytes := namePrefix rt ft ++ utf8 token ++ [0x00]

def tokenScanPrefix (tokenStart : String) : Bytes := namePrefix rt ft ++ utf8 tokenStart

/-- `extract_node_id`. -/
def extractNodeId (key : Bytes) : StorageResult NodeId :=
  if key.length < 16 then .error (.deserialization "fulltext key too short for node id")
  else do
    let id ← decodeIdSuffix "invalid node id in ft index" key
    pure ⟨id⟩

def scanPrefixIds (db : Db) (keyPrefix : Bytes) : StorageResult (List NodeId) :=
  (scan (db .propIndex) keyPrefix).mapM fun e => extractNodeId e.1

/-- One posting a token, in one batch. -/
def indexText (nodeId : NodeId) (text : String) : StorageM Unit :=
  Journaled.write ((tokenize rt text).toList.map fun t => .put .propIndex (entryKey rt ft t nodeId) [])

def removeText (nodeId : NodeId) (text : String) : StorageM Unit :=
  Journaled.write ((tokenize rt text).toList.map fun t => .delete .propIndex (entryKey rt ft t nodeId))

/-- The loop of `search` over the remaining tokens: it ends early once nothing is left. -/
def intersectPostings (db : Db) (result : OrderedSet NodeId) :
    List String → StorageResult (OrderedSet NodeId)
  | [] => .ok result
  | token :: tokens => do
    let ids ← scanPrefixIds db (tokenPrefix rt ft token)
    let result := result.filter fun id => ids.contains id
    if result.isEmpty then pure result else intersectPostings db result tokens

/-- Nodes containing all query terms, in order. -/
def search (db : Db) (query : String) : StorageResult (List NodeId) :=
  match (tokenize rt query).toList with
  | [] => .ok []
  | token :: tokens => do
    let firstIds ← scanPrefixIds db (tokenPrefix rt ft token)
    let result ← intersectPostings rt ft db (Std.ExtTreeSet.ofList firstIds _) tokens
    pure result.toList

/-- Nodes containing a token that starts with the given text, in order. -/
def searchPrefix (db : Db) (start : String) : StorageResult (List NodeId) := do
  let ids ← scanPrefixIds db (tokenScanPrefix rt ft (rt.toLowercase start))
  pure (Std.ExtTreeSet.ofList ids (compare : NodeId → NodeId → Ordering)).toList

end FullTextIndex

end Synaptica.Storage
