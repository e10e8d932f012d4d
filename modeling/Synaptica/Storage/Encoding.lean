import Synaptica.Core.Graph
import Synaptica.Lib.BigEndian

/-!
# Key encoding

`synaptica_storage::encoding`: how nodes, edges and their indexes are laid out as byte strings. Every
key of a graph starts with the sixteen bytes of the graph's identifier; labels are length-prefixed,
so that a prefix scan for one label cannot run into the keys of a longer one.

* `encodeNodeKey_inj`, `encodeEdgeKey_inj` — a data key determines its graph and its entity;
* `nodeLabelPrefix_prefix_iff`, `adjLabelPrefix_prefix_iff` — an index key starts with a scan prefix
  exactly when it was built from the same graph, node and label.
-/

namespace Synaptica

/-- The label fits the two bytes of length its encoding has. -/
def Label.Fits (l : Label) : Prop := (utf8 l.name).length ≤ 65535

instance (l : Label) : Decidable l.Fits := inferInstanceAs (Decidable (_ ≤ _))

namespace Storage

open BigEndian

/-! ## Encoders -/

/-- `encode_label`: two bytes of length, then the label, cut at `u16::MAX` bytes. -/
def encodeLabel (label : String) : Bytes :=
  let bytes := utf8 label
  let len := min bytes.length 65535
  beBytes 2 len ++ bytes.take len

/-- `graph_id ++ node_id`. -/
def encodeNodeKey (graphId : GraphId) (nodeId : NodeId) : Bytes :=
  graphId.asBytes ++ nodeId.asBytes

def encodeNodePrefix (graphId : GraphId) : Bytes := graphId.asBytes

/-- `graph_id ++ edge_id`. -/
def encodeEdgeKey (graphId : GraphId) (edgeId : EdgeId) : Bytes :=
  graphId.asBytes ++ edgeId.asBytes

def encodeEdgePrefix (graphId : GraphId) : Bytes := graphId.asBytes

/-- The common shape of the two adjacency layouts: `graph_id ++ node_id ++ label ++ edge_id`. -/
def adjKey (graphId : GraphId) (node : NodeId) (label : Label) (edgeId : EdgeId) : Bytes :=
  graphId.asBytes ++ node.asBytes ++ encodeLabel label.name ++ edgeId.asBytes

def adjPrefix (graphId : GraphId) (node : NodeId) : Bytes := graphId.asBytes ++ node.asBytes

def adjLabelPrefix (graphId : GraphId) (node : NodeId) (label : Label) : Bytes :=
  graphId.asBytes ++ node.asBytes ++ encodeLabel label.name

def encodeAdjOutKey (graphId : GraphId) (source : NodeId) (label : Label) (edgeId : EdgeId) : Bytes :=
  adjKey graphId source label edgeId

def encodeAdjInKey (graphId : GraphId) (target : NodeId) (label : Label) (edgeId : EdgeId) : Bytes :=
  adjKey graphId target label edgeId

def encodeAdjOutPrefix (graphId : GraphId) (source : NodeId) : Bytes := adjPrefix graphId source

def encodeAdjOutLabelPrefix (graphId : GraphId) (source : NodeId) (label : Label) : Bytes :=
  adjLabelPrefix graphId source label

def encodeAdjInPrefix (graphId : GraphId) (target : NodeId) : Bytes := adjPrefix graphId target

def encodeAdjInLabelPrefix (graphId : GraphId) (target : NodeId) (label : Label) : Bytes :=
  adjLabelPrefix graphId target label

/-- `graph_id ++ label ++ node_id`. -/
def encodeNodeLabelKey (graphId : GraphId) (label : Label) (nodeId : NodeId) : Bytes :=
  graphId.asBytes ++ encodeLabel label.name ++ nodeId.asBytes

def encodeNodeLabelPrefix (graphId : GraphId) (label : Label) : Bytes :=
  graphId.asBytes ++ encodeLabel label.name

/-- `graph_id ++ label ++ edge_id`. -/
def encodeEdgeLabelKey (graphId : GraphId) (label : Label) (edgeId : EdgeId) : Bytes :=
  graphId.asBytes ++ encodeLabel label.name ++ edgeId.asBytes

def encodeGraphMetaKey (graphId : GraphId) : Bytes := graphId.asBytes

/-- The sixteen bytes at the end of a key, where every index layout keeps the entity. -/
def idSuffix (key : Bytes) : Bytes := key.drop (key.length - 16)

/-! ## Value serialization -/

/-- Whether an index covers nodes or edges. -/
inductive IndexEntityType where
  | node
  | edge
  deriving DecidableEq, Repr

/-- Defines a secondary property index. -/
structure IndexDefinition where
  name : String
  graphId : GraphId
  entityType : IndexEntityType
  propertyNames : List String
  unique : Bool
  deriving DecidableEq, Repr

/-- `serialize_value` and `deserialize_value` at one type. The errors are the texts of the
underlying ones. -/
structure Codec (α : Type) where
  serialize : α → Except String Bytes
  deserialize : Bytes → Except String α

/-- What was serialized reads back. -/
def Codec.RoundTrips {α : Type} (c : Codec α) : Prop :=
  ∀ a b, c.serialize a = .ok b → c.deserialize b = .ok a

/-- A codec that knows finitely many values. -/
def Codec.ofTable {α : Type} [DecidableEq α] (table : List (α × Bytes)) : Codec α where
  serialize a :=
    match table.find? (fun e => e.1 == a) with
    | some e => .ok e.2
    | none => .error "unknown value"
  deserialize b :=
    match table.find? (fun e => e.2 == b) with
    | some e => .ok e.1
    | none => .error "unknown bytes"

theorem Codec.ofTable_roundTrips {α : Type} [DecidableEq α] {table : List (α × Bytes)}
    (h : (table.map Prod.snd).Nodup) : (Codec.ofTable table).RoundTrips := by
  intro a b hab
  simp only [Codec.ofTable] at hab ⊢
  split at hab
  · rename_i e he
    obtain rfl : e.2 = b := by simpa using hab
    obtain rfl : e.1 = a := by simpa using List.find?_some he
    have hmem := List.mem_of_find?_eq_some he
    cases hf : table.find? (fun e' => e'.2 == e.2) with
    | none =>
      have := List.find?_eq_none.mp hf e hmem
      simp at this
    | some e' =>
      have hsnd : e'.2 = e.2 := by simpa using List.find?_some hf
      rw [List.inj_on_of_nodup_map h (List.mem_of_find?_eq_some hf) hmem hsnd]
  · cases hab

/-- The `bincode` encodings of the types the store writes. -/
structure Bincode where
  node : Codec Node
  edge : Codec Edge
  graphMeta : Codec GraphMeta
  indexDefinition : Codec IndexDefinition
  value : Codec Value

/-! The layouts of `bincode` that concrete instances below are built from: little-endian lengths,
identifiers and texts as byte strings, and no properties. -/

def bincodeLength (n : Nat) : Bytes := (beBytes 8 n).reverse

def bincodeUuid (u : Uuid) : Bytes := bincodeLength 16 ++ u.bytes

def bincodeString (s : String) : Bytes := bincodeLength (utf8 s).length ++ utf8 s

def bincodeBareNode (n : Node) : Bytes :=
  bincodeUuid n.id.uuid ++ bincodeUuid n.graphId.uuid ++ bincodeLength n.labels.size ++
    n.labels.toList.flatMap (fun l => bincodeString l.name) ++ bincodeLength 0

def bincodeBareEdge (e : Edge) : Bytes :=
  bincodeUuid e.id.uuid ++ bincodeUuid e.graphId.uuid ++ bincodeUuid e.source.uuid ++
    bincodeUuid e.target.uuid ++ bincodeString e.label.name ++ bincodeLength 0

/-- `bincode` on finitely many nodes and edges without properties. -/
def Bincode.bare (nodes : List Node) (edges : List Edge) : Bincode where
  node := Codec.ofTable (nodes.map fun n => (n, bincodeBareNode n))
  edge := Codec.ofTable (edges.map fun e => (e, bincodeBareEdge e))
  graphMeta := Codec.ofTable []
  indexDefinition := Codec.ofTable []
  value := Codec.ofTable []

/-! ## Strings of one length -/

theorem append_prefix_append_iff {a b x y : Bytes} (h : a.length = b.length) :
    a ++ x <+: b ++ y ↔ a = b ∧ x <+: y := by
  constructor
  · rintro ⟨t, ht⟩
    rw [List.append_assoc] at ht
    obtain ⟨hab, hxy⟩ := List.append_inj ht h
    exact ⟨hab, t, hxy⟩
  · rintro ⟨rfl, t, rfl⟩
    exact ⟨t, List.append_assoc _ _ _⟩

theorem append_eq_append_iff_of_length {a b x y : Bytes} (h : a.length = b.length) :
    a ++ x = b ++ y ↔ a = b ∧ x = y := by
  constructor
  · intro hab
    exact List.append_inj hab h
  · rintro ⟨rfl, rfl⟩
    rfl

@[simp] theorem idSuffix_append {key id : Bytes} (h : id.length = 16) : idSuffix (key ++ id) = id := by
  simp [idSuffix, h]

@[simp] theorem graphBytes_inj {g g' : GraphId} : g.asBytes = g'.asBytes ↔ g = g' :=
  GraphId.asBytes_injective.eq_iff

@[simp] theorem nodeBytes_inj {n n' : NodeId} : n.asBytes = n'.asBytes ↔ n = n' :=
  NodeId.asBytes_injective.eq_iff

@[simp] theorem edgeBytes_inj {e e' : EdgeId} : e.asBytes = e'.asBytes ↔ e = e' :=
  EdgeId.asBytes_injective.eq_iff

/-! ## Data keys -/

/-- The block of a graph holds the keys built for it, and no others. -/
theorem graph_prefix_iff {g g' : GraphId} {x : Bytes} : g.asBytes <+: g'.asBytes ++ x ↔ g = g' := by
  have := append_prefix_append_iff (a := g.asBytes) (b := g'.asBytes) (x := []) (y := x) (by simp)
  rw [List.append_nil] at this
  simp [this]

theorem encodeNodeKey_inj {g g' : GraphId} {n n' : NodeId} :
    encodeNodeKey g n = encodeNodeKey g' n' ↔ g = g' ∧ n = n' := by
  rw [encodeNodeKey, encodeNodeKey, append_eq_append_iff_of_length (by simp)]
  simp

theorem encodeEdgeKey_inj {g g' : GraphId} {e e' : EdgeId} :
    encodeEdgeKey g e = encodeEdgeKey g' e' ↔ g = g' ∧ e = e' := by
  rw [encodeEdgeKey, encodeEdgeKey, append_eq_append_iff_of_length (by simp)]
  simp

/-! ## Labels -/

theorem encodeLabel_of_fits {l : Label} (h : l.Fits) :
    encodeLabel l.name = beBytes 2 (utf8 l.name).length ++ utf8 l.name := by
  have hmin : min (utf8 l.name).length 65535 = (utf8 l.name).length := Nat.min_eq_left h
  simp only [encodeLabel, hmin, List.take_length]

/-- **The length prefix separates labels**: no encoded label is a prefix of another one, whatever
follows it. -/
theorem encodeLabel_prefix_iff {l l' : Label} (h : l.Fits) (h' : l'.Fits) (x : Bytes) :
    encodeLabel l.name <+: encodeLabel l'.name ++ x ↔ l = l' := by
  rw [encodeLabel_of_fits h, encodeLabel_of_fits h', List.append_assoc]
  rw [append_prefix_append_iff (by simp)]
  constructor
  · rintro ⟨hlen, hpre⟩
    have hlt : ∀ {l : Label}, l.Fits → (utf8 l.name).length < 256 ^ 2 := by
      intro l hl
      exact Nat.lt_of_le_of_lt hl (by norm_num)
    have hlen : (utf8 l.name).length = (utf8 l'.name).length :=
      (beBytes_inj (hlt h) (hlt h')).mp hlen
    have hname : utf8 l.name = utf8 l'.name :=
      (List.prefix_of_prefix_length_le hpre (List.prefix_append _ x) hlen.le).eq_of_length hlen
    cases l
    cases l'
    exact congrArg Label.mk (utf8_injective hname)
  · rintro rfl
    exact ⟨rfl, List.prefix_append _ _⟩

/-! ## Index keys

The graph and the entity can be read off either end of an index key, whatever the label; the label
in between only when it fits. -/

theorem encodeNodeLabelKey_owner {g g' : GraphId} {l l' : Label} {n n' : NodeId}
    (h : encodeNodeLabelKey g l n = encodeNodeLabelKey g' l' n') : g = g' ∧ n = n' := by
  have hn : idSuffix (encodeNodeLabelKey g l n) = idSuffix (encodeNodeLabelKey g' l' n') :=
    congrArg idSuffix h
  rw [encodeNodeLabelKey, encodeNodeLabelKey, List.append_assoc, List.append_assoc] at h
  rw [append_eq_append_iff_of_length (by simp)] at h
  simp only [encodeNodeLabelKey, idSuffix_append, NodeId.length_asBytes, nodeBytes_inj] at hn
  exact ⟨graphBytes_inj.mp h.1, hn⟩

theorem encodeEdgeLabelKey_owner {g g' : GraphId} {l l' : Label} {e e' : EdgeId}
    (h : encodeEdgeLabelKey g l e = encodeEdgeLabelKey g' l' e') : g = g' ∧ e = e' := by
  have he : idSuffix (encodeEdgeLabelKey g l e) = idSuffix (encodeEdgeLabelKey g' l' e') :=
    congrArg idSuffix h
  rw [encodeEdgeLabelKey, encodeEdgeLabelKey, List.append_assoc, List.append_assoc] at h
  rw [append_eq_append_iff_of_length (by simp)] at h
  simp only [encodeEdgeLabelKey, idSuffix_append, EdgeId.length_asBytes, edgeBytes_inj] at he
  exact ⟨graphBytes_inj.mp h.1, he⟩

theorem adjKey_owner {g g' : GraphId} {n n' : NodeId} {l l' : Label} {e e' : EdgeId}
    (h : adjKey g n l e = adjKey g' n' l' e') : g = g' ∧ e = e' := by
  have he : idSuffix (adjKey g n l e) = idSuffix (adjKey g' n' l' e') := congrArg idSuffix h
  rw [adjKey, adjKey, List.append_assoc, List.append_assoc, List.append_assoc, List.append_assoc] at h
  rw [append_eq_append_iff_of_length (by simp)] at h
  simp only [adjKey, idSuffix_append, EdgeId.length_asBytes, edgeBytes_inj] at he
  exact ⟨graphBytes_inj.mp h.1, he⟩

theorem nodeLabelPrefix_prefix_iff {g g' : GraphId} {l l' : Label} {n : NodeId} (h : l.Fits)
    (h' : l'.Fits) :
    encodeNodeLabelPrefix g l <+: encodeNodeLabelKey g' l' n ↔ g = g' ∧ l = l' := by
  rw [encodeNodeLabelPrefix, encodeNodeLabelKey, List.append_assoc,
    append_prefix_append_iff (by simp), encodeLabel_prefix_iff h h', graphBytes_inj]

theorem adjPrefix_prefix_iff {g g' : GraphId} {n n' : NodeId} {l : Label} {e : EdgeId} :
    adjPrefix g n <+: adjKey g' n' l e ↔ g = g' ∧ n = n' := by
  have hlen : (g.asBytes ++ n.asBytes).length = (g'.asBytes ++ n'.asBytes).length := by simp
  have := append_prefix_append_iff (x := []) (y := encodeLabel l.name ++ e.asBytes) hlen
  rw [List.append_nil, append_eq_append_iff_of_length (by simp)] at this
  rw [adjPrefix, adjKey, List.append_assoc, this]
  simp

theorem adjLabelPrefix_prefix_iff {g g' : GraphId} {n n' : NodeId} {l l' : Label} {e : EdgeId}
    (h : l.Fits) (h' : l'.Fits) :
    adjLabelPrefix g n l <+: adjKey g' n' l' e ↔ g = g' ∧ n = n' ∧ l = l' := by
  rw [adjLabelPrefix, adjKey, List.append_assoc _ (encodeLabel l'.name), append_prefix_append_iff (by simp),
    append_eq_append_iff_of_length (by simp), encodeLabel_prefix_iff h h']
  simp [and_assoc]

end Storage

end Synaptica
