import Synaptica.Core.Value

/-!
# The property graph

`synaptica_core::graph`: identifiers, labels, nodes and edges. Identifiers are UUIDs, sixteen bytes
whose order is the order of the bytes; the length is a field, so that a slice of any other size is
not an identifier.
-/

namespace Synaptica

/-! ## Identifiers -/

/-- `uuid::Uuid`. -/
structure Uuid where
  bytes : Bytes
  length_eq : bytes.length = 16
  deriving DecidableEq, Repr

namespace Uuid

theorem ext {a b : Uuid} (h : a.bytes = b.bytes) : a = b := by
  cases a
  cases b
  simpa using h

/-- The conversion of a slice into `[u8; 16]`, which fails on any other length. -/
def fromSlice (b : Bytes) : Option Uuid :=
  if h : b.length = 16 then some ⟨b, h⟩ else none

@[simp] theorem fromSlice_bytes (u : Uuid) : fromSlice u.bytes = some u := by
  simp [fromSlice, u.length_eq]

/-- `Uuid::nil`. -/
def nil : Uuid := ⟨List.replicate 16 0, rfl⟩

/-- Lower-case hexadecimal, hyphenated after bytes 4, 6, 8 and 10. -/
def toString (u : Uuid) : String :=
  let group (i n : Nat) := hexEncode ((u.bytes.drop i).take n)
  String.ofList (group 0 4 ++ '-' :: group 4 2 ++ '-' :: group 6 2 ++ '-' :: group 8 2 ++
    '-' :: group 10 6)

instance : LinearOrder Uuid := LinearOrder.lift' Uuid.bytes (fun _ _ => ext)

end Uuid

/-- Unique identifier of a graph within the database. -/
structure GraphId where
  uuid : Uuid
  deriving DecidableEq, Repr

/-- Unique identifier of a node within a graph. -/
structure NodeId where
  uuid : Uuid
  deriving DecidableEq, Repr

/-- Unique identifier of an edge within a graph. -/
structure EdgeId where
  uuid : Uuid
  deriving DecidableEq, Repr

def GraphId.asBytes (g : GraphId) : Bytes := g.uuid.bytes
def NodeId.asBytes (n : NodeId) : Bytes := n.uuid.bytes
def EdgeId.asBytes (e : EdgeId) : Bytes := e.uuid.bytes

@[simp] theorem GraphId.length_asBytes (g : GraphId) : g.asBytes.length = 16 := g.uuid.length_eq
@[simp] theorem NodeId.length_asBytes (n : NodeId) : n.asBytes.length = 16 := n.uuid.length_eq
@[simp] theorem EdgeId.length_asBytes (e : EdgeId) : e.asBytes.length = 16 := e.uuid.length_eq

theorem GraphId.asBytes_injective : Function.Injective GraphId.asBytes := by
  rintro ⟨a⟩ ⟨b⟩ h
  exact congrArg GraphId.mk (Uuid.ext h)

theorem NodeId.asBytes_injective : Function.Injective NodeId.asBytes := by
  rintro ⟨a⟩ ⟨b⟩ h
  exact congrArg NodeId.mk (Uuid.ext h)

theorem EdgeId.asBytes_injective : Function.Injective EdgeId.asBytes := by
  rintro ⟨a⟩ ⟨b⟩ h
  exact congrArg EdgeId.mk (Uuid.ext h)

instance : LinearOrder NodeId := LinearOrder.lift' NodeId.asBytes NodeId.asBytes_injective

/-! ## Nodes and edges -/

/-- The bytes of a string in UTF-8. -/
def utf8 (s : String) : Bytes := s.toByteArray.data.toList

theorem utf8_injective : Function.Injective utf8 := by
  intro a b h
  have : a.toByteArray = b.toByteArray := ByteArray.ext (Array.toList_inj.mp h)
  exact String.toByteArray_inj.mp this

/-- A label name for nodes and edges. -/
structure Label where
  name : String
  deriving DecidableEq, Repr

instance : LinearOrder Label :=
  LinearOrder.lift' Label.name (fun a b h => by cases a; cases b; simpa using h)

/-- A `BTreeSet`: its elements in increasing order, each once. -/
abbrev OrderedSet (α : Type) [LinearOrder α] : Type :=
  Std.ExtTreeSet α (compare : α → α → Ordering)

/-- Properties stored on a node or edge. -/
abbrev Properties := OrderedMap String Value

/-- A node (vertex) in the property graph. -/
structure Node where
  id : NodeId
  graphId : GraphId
  labels : OrderedSet Label
  properties : Properties
  deriving DecidableEq

/-- `Node::get_property`. -/
def Node.getProperty (n : Node) (key : String) : Option Value := n.properties[key]?

/-- An edge (relationship) in the property graph. -/
structure Edge where
  id : EdgeId
  graphId : GraphId
  source : NodeId
  target : NodeId
  label : Label
  properties : Properties
  deriving DecidableEq

/-- Metadata for a named graph. -/
structure GraphMeta where
  id : GraphId
  name : String
  graphType : Option String
  deriving DecidableEq

end Synaptica
