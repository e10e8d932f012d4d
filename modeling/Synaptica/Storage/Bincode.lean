import Synaptica.Storage.Encoding

/-!
# The layout of what is stored

`bincode` with its default options: integers little-endian and of fixed width, lengths in eight
bytes, a variant by its number in four. Dates and times are written as their texts. These are the
bytes that concrete stores below hold; the theorems about all stores only use that what was written
reads back.
-/

namespace Synaptica.Storage

open BigEndian

/-- The number of a variant, or a 32-bit integer. -/
def bincodeU32 (n : Nat) : Bytes := (beBytes 4 n).reverse

def bincodeU64 (n : Nat) : Bytes := (beBytes 8 n).reverse

variable (f : Formats)

mutual

/-- The variants of `Value`, numbered as they are declared. -/
def bincodeValue : Value → Bytes
  | .null => bincodeU32 0
  | .bool b => bincodeU32 1 ++ [if b then 1 else 0]
  | .integer i => bincodeU32 2 ++ bincodeU64 i.toUInt64.toNat
  | .float bits => bincodeU32 3 ++ bincodeU64 bits.toNat
  | .string s => bincodeU32 4 ++ bincodeString s
  | .bytes b => bincodeU32 5 ++ bincodeLength b.length ++ b
  | .date d => bincodeU32 6 ++ bincodeString (f.date d)
  | .time t => bincodeU32 7 ++ bincodeString (f.time t)
  | .timestamp ts => bincodeU32 8 ++ bincodeString (f.timestamp ts)
  | .duration d =>
    bincodeU32 9 ++ bincodeU32 d.months.toUInt32.toNat ++ bincodeU32 d.days.toUInt32.toNat ++
      bincodeU64 d.nanos.toUInt64.toNat
  | .list l => bincodeU32 10 ++ bincodeLength l.length ++ bincodeValues l
  | .map m => bincodeU32 11 ++ bincodeLength m.length ++ bincodeEntries m
  | .node id labels properties =>
    bincodeU32 12 ++ bincodeString id ++ bincodeLength labels.length ++ labels.flatMap bincodeString ++
      bincodeLength properties.length ++ bincodeEntries properties
  | .edge id label sourceId targetId properties =>
    bincodeU32 13 ++ bincodeString id ++ bincodeString label ++ bincodeString sourceId ++
      bincodeString targetId ++ bincodeLength properties.length ++ bincodeEntries properties

def bincodeValues : List Value → Bytes
  | [] => []
  | v :: vs => bincodeValue v ++ bincodeValues vs

def bincodeEntries : List (String × Value) → Bytes
  | [] => []
  | (k, v) :: es => bincodeString k ++ bincodeValue v ++ bincodeEntries es

end

def bincodeProperties (props : Properties) : Bytes :=
  bincodeLength props.toList.length ++ bincodeEntries f props.toList

def bincodeNode (n : Node) : Bytes :=
  bincodeUuid n.id.uuid ++ bincodeUuid n.graphId.uuid ++ bincodeLength n.labels.size ++
    n.labels.toList.flatMap (fun l => bincodeString l.name) ++ bincodeProperties f n.properties

def bincodeEdge (e : Edge) : Bytes :=
  bincodeUuid e.id.uuid ++ bincodeUuid e.graphId.uuid ++ bincodeUuid e.source.uuid ++
    bincodeUuid e.target.uuid ++ bincodeString e.label.name ++ bincodeProperties f e.properties

def bincodeGraphMeta (m : GraphMeta) : Bytes :=
  bincodeUuid m.id.uuid ++ bincodeString m.name ++
    match m.graphType with
    | none => [0]
    | some t => 1 :: bincodeString t

def bincodeIndexDefinition (d : IndexDefinition) : Bytes :=
  bincodeString d.name ++ bincodeUuid d.graphId.uuid ++
    bincodeU32 (match d.entityType with
      | .node => 0
      | .edge => 1) ++
    bincodeLength d.propertyNames.length ++ d.propertyNames.flatMap bincodeString ++
    [if d.unique then 1 else 0]

/-- `bincode` on the entities of a concrete run. -/
def Bincode.table (nodes : List Node) (edges : List Edge) (definitions : List IndexDefinition) :
    Bincode where
  node := Codec.ofTable (nodes.map fun n => (n, bincodeNode f n))
  edge := Codec.ofTable (edges.map fun e => (e, bincodeEdge f e))
  graphMeta := Codec.ofTable []
  indexDefinition := Codec.ofTable (definitions.map fun d => (d, bincodeIndexDefinition d))
  value := ⟨fun v => .ok (bincodeValue f v), fun _ => .error "unknown bytes"⟩

end Synaptica.Storage
