import Synaptica.Core.Graph
import Synaptica.Lib.KeyedSet

/-!
# Property graphs

A graph apart from how it is stored: finitely many nodes and finitely many edges, each told apart by its
identifier. Nodes and edges are put under their identifiers, edges are removed, nodes are removed together
with the edges at them, and properties are assigned.
-/

namespace Synaptica

/-- The nodes and the edges of a graph. -/
@[ext] structure PropertyGraph where
  nodes : KeyedSet Node.id
  edges : KeyedSet Edge.id

/-! ## Assignments -/

/-- What an assignment is made to. -/
inductive EntityId where
  | node (i : NodeId)
  | edge (i : EdgeId)
  deriving DecidableEq

/-- The property of an entity gets a value. -/
structure Assignment where
  entity : EntityId
  property : String
  value : Value

/-- The properties of an entity after some assignments, made in turn. -/
def assigned (i : EntityId) (properties : Properties) (as : List Assignment) : Properties :=
  as.foldl (fun ps a => if a.entity = i then ps.insert a.property a.value else ps) properties

theorem assigned_append (i : EntityId) (properties : Properties) (as bs : List Assignment) :
    assigned i properties (as ++ bs) = assigned i (assigned i properties as) bs :=
  List.foldl_append

/-- The last assignment to a property wins, and the other properties stay. -/
theorem getElem?_assigned (i : EntityId) (properties : Properties) (as : List Assignment) (p : String) :
    (assigned i properties as)[p]? =
      ((as.reverse.find? fun a => a.entity = i ∧ a.property = p).map (·.value)).or properties[p]? := by
  induction as using List.reverseRecOn with
  | nil => rfl
  | append_singleton as a ih =>
    rw [assigned_append, List.reverse_append, List.reverse_singleton, List.singleton_append,
      List.find?_cons]
    show (if a.entity = i then _ else _ : Properties)[p]? = _
    by_cases hentity : a.entity = i
    · rw [if_pos hentity, OrderedMap.getElem?_insert, ih]
      by_cases hproperty : a.property = p
      · simp [hentity, hproperty]
      · simp [hentity, hproperty]
    · simp [hentity, ih]

def Node.assign (as : List Assignment) (n : Node) : Node :=
  { n with properties := assigned (.node n.id) n.properties as }

def Edge.assign (as : List Assignment) (e : Edge) : Edge :=
  { e with properties := assigned (.edge e.id) e.properties as }

@[simp] theorem Node.id_assign (as : List Assignment) (n : Node) : (n.assign as).id = n.id := rfl
@[simp] theorem Edge.id_assign (as : List Assignment) (e : Edge) : (e.assign as).id = e.id := rfl

theorem Node.assign_append (as bs : List Assignment) (n : Node) :
    n.assign (as ++ bs) = (n.assign as).assign bs := by
  rw [Node.assign, assigned_append]
  rfl

theorem Edge.assign_append (as bs : List Assignment) (e : Edge) :
    e.assign (as ++ bs) = (e.assign as).assign bs := by
  rw [Edge.assign, assigned_append]
  rfl

namespace PropertyGraph

variable (G : PropertyGraph)

/-! ## Operations -/

def putNode (n : Node) : PropertyGraph := { G with nodes := G.nodes.put n }

def putEdge (e : Edge) : PropertyGraph := { G with edges := G.edges.put e }

def removeEdges (gone : Set EdgeId) : PropertyGraph :=
  { G with edges := G.edges.filter fun e => e.id ∉ gone }

/-- Remove nodes and the edges at them. -/
def removeNodes (gone : Set NodeId) : PropertyGraph where
  nodes := G.nodes.filter fun n => n.id ∉ gone
  edges := G.edges.filter fun e => e.source ∉ gone ∧ e.target ∉ gone

/-- Make the assignments in turn. -/
def assign (as : List Assignment) : PropertyGraph where
  nodes := G.nodes.map (Node.assign as) (Node.id_assign as)
  edges := G.edges.map (Edge.assign as) (Edge.id_assign as)

theorem nodes_assign (as : List Assignment) :
    (G.assign as).nodes = G.nodes.map (Node.assign as) (Node.id_assign as) := rfl

theorem edges_assign (as : List Assignment) :
    (G.assign as).edges = G.edges.map (Edge.assign as) (Edge.id_assign as) := rfl

/-- The identifiers of the nodes and edges. -/
def uuids : Set Uuid := {u | (∃ n ∈ G.nodes, n.id.uuid = u) ∨ ∃ e ∈ G.edges, e.id.uuid = u}

/-! ## How they compose -/

@[simp] theorem assign_nil : G.assign [] = G := by
  apply PropertyGraph.ext
  · rw [nodes_assign]
    exact KeyedSet.map_eq_self fun n _ => rfl
  · rw [edges_assign]
    exact KeyedSet.map_eq_self fun e _ => rfl

theorem assign_append (as bs : List Assignment) : G.assign (as ++ bs) = (G.assign as).assign bs := by
  apply PropertyGraph.ext
  · rw [nodes_assign, nodes_assign, nodes_assign, KeyedSet.map_map, KeyedSet.map_eq_map_iff]
    exact fun n _ => Node.assign_append as bs n
  · rw [edges_assign, edges_assign, edges_assign, KeyedSet.map_map, KeyedSet.map_eq_map_iff]
    exact fun e _ => Edge.assign_append as bs e

variable {G}

/-- An assignment to a node of the graph puts the node with its new properties. -/
theorem putNode_eq_assign {n : Node} (hn : n ∈ G.nodes) (p : String) (v : Value) :
    G.putNode { n with properties := n.properties.insert p v } = G.assign [⟨.node n.id, p, v⟩] := by
  have hassign : n.assign [⟨.node n.id, p, v⟩] = { n with properties := n.properties.insert p v } := by
    simp [Node.assign, assigned]
  apply PropertyGraph.ext
  · rw [nodes_assign, KeyedSet.map_eq_put hn, hassign]
    · rfl
    intro x hx hne
    have hid : n.id ≠ x.id := fun heq => hne (KeyedSet.eq_of_key hx hn heq.symm)
    simp [Node.assign, assigned, hid]
  · rw [edges_assign, KeyedSet.map_eq_self]
    · rfl
    intro e _
    simp [Edge.assign, assigned]

theorem putEdge_eq_assign {e : Edge} (he : e ∈ G.edges) (p : String) (v : Value) :
    G.putEdge { e with properties := e.properties.insert p v } = G.assign [⟨.edge e.id, p, v⟩] := by
  have hassign : e.assign [⟨.edge e.id, p, v⟩] = { e with properties := e.properties.insert p v } := by
    simp [Edge.assign, assigned]
  apply PropertyGraph.ext
  · rw [nodes_assign, KeyedSet.map_eq_self]
    · rfl
    intro n _
    simp [Node.assign, assigned]
  · rw [edges_assign, KeyedSet.map_eq_put he, hassign]
    · rfl
    intro x hx hne
    have hid : e.id ≠ x.id := fun heq => hne (KeyedSet.eq_of_key hx he heq.symm)
    simp [Edge.assign, assigned, hid]

@[simp] theorem removeEdges_empty : G.removeEdges ∅ = G :=
  PropertyGraph.ext rfl (KeyedSet.filter_eq_self fun _ _ => Set.notMem_empty _)

@[simp] theorem removeNodes_empty : G.removeNodes ∅ = G :=
  PropertyGraph.ext (KeyedSet.filter_eq_self fun _ _ => Set.notMem_empty _)
    (KeyedSet.filter_eq_self fun _ _ => ⟨Set.notMem_empty _, Set.notMem_empty _⟩)

theorem removeEdges_removeEdges (gone gone' : Set EdgeId) :
    (G.removeEdges gone).removeEdges gone' = G.removeEdges (gone ∪ gone') := by
  refine PropertyGraph.ext rfl ?_
  show (G.edges.filter _).filter _ = G.edges.filter _
  rw [KeyedSet.filter_filter]
  exact KeyedSet.filter_congr fun e _ => by simp

theorem removeNodes_removeNodes (gone gone' : Set NodeId) :
    (G.removeNodes gone).removeNodes gone' = G.removeNodes (gone ∪ gone') := by
  apply PropertyGraph.ext
  · show (G.nodes.filter _).filter _ = G.nodes.filter _
    rw [KeyedSet.filter_filter]
    exact KeyedSet.filter_congr fun n _ => by simp
  · show (G.edges.filter _).filter _ = G.edges.filter _
    rw [KeyedSet.filter_filter]
    exact KeyedSet.filter_congr fun e _ => by simp; tauto

/-! ## Identifiers -/

theorem uuids_putNode_subset (n : Node) : (G.putNode n).uuids ⊆ insert n.id.uuid G.uuids := by
  rintro u (⟨x, hx, rfl⟩ | hedge)
  · rcases hx with rfl | ⟨hx, -⟩
    · exact .inl rfl
    · exact .inr (.inl ⟨x, hx, rfl⟩)
  · exact .inr (.inr hedge)

theorem uuids_putEdge_subset (e : Edge) : (G.putEdge e).uuids ⊆ insert e.id.uuid G.uuids := by
  rintro u (hnode | ⟨x, hx, rfl⟩)
  · exact .inr (.inl hnode)
  · rcases hx with rfl | ⟨hx, -⟩
    · exact .inl rfl
    · exact .inr (.inr ⟨x, hx, rfl⟩)

theorem uuids_assign_subset (as : List Assignment) : (G.assign as).uuids ⊆ G.uuids := by
  rintro u (⟨x, ⟨n, hn, rfl⟩, rfl⟩ | ⟨x, ⟨e, he, rfl⟩, rfl⟩)
  · exact .inl ⟨n, hn, rfl⟩
  · exact .inr ⟨e, he, rfl⟩

theorem uuids_removeEdges_subset (gone : Set EdgeId) : (G.removeEdges gone).uuids ⊆ G.uuids := by
  rintro u (hnode | ⟨e, he, rfl⟩)
  · exact .inl hnode
  · exact .inr ⟨e, he.1, rfl⟩

theorem uuids_removeNodes_subset (gone : Set NodeId) : (G.removeNodes gone).uuids ⊆ G.uuids := by
  rintro u (⟨n, hn, rfl⟩ | ⟨e, he, rfl⟩)
  · exact .inl ⟨n, hn.1, rfl⟩
  · exact .inr ⟨e, he.1, rfl⟩

/-! ## Counting -/

theorem count_assign (as : List Assignment) :
    (G.assign as).nodes.count = G.nodes.count ∧ (G.assign as).edges.count = G.edges.count := by
  rw [nodes_assign, edges_assign]
  exact ⟨KeyedSet.count_map, KeyedSet.count_map⟩

/-- Removing an edge of the graph leaves one edge less. -/
theorem count_removeEdge {e : Edge} (he : e ∈ G.edges) :
    (G.removeEdges {e.id}).edges.count + 1 = G.edges.count :=
  KeyedSet.count_filter_ne he

/-- Removing a node of the graph leaves one node less, and the edges less that are at it. -/
theorem count_removeNode {n : Node} (hn : n ∈ G.nodes) {is : List EdgeId} (hnodup : is.Nodup)
    (his : ∀ i, i ∈ is ↔ ∃ e ∈ G.edges, (e.source = n.id ∨ e.target = n.id) ∧ e.id = i) :
    (G.removeNodes {n.id}).nodes.count + 1 = G.nodes.count ∧
      (G.removeNodes {n.id}).edges.count + is.length = G.edges.count := by
  refine ⟨KeyedSet.count_filter_ne hn, ?_⟩
  have hincident : (G.edges.filter fun e => ¬ (e.source ∉ ({n.id} : Set NodeId) ∧
      e.target ∉ ({n.id} : Set NodeId))).count = is.length := by
    apply KeyedSet.count_eq_length hnodup
    intro i
    rw [his]
    refine exists_congr fun e => ?_
    rw [KeyedSet.mem_filter, and_assoc]
    refine and_congr_right fun _ => and_congr_left fun _ => ?_
    simp only [Set.mem_singleton_iff]
    tauto
  rw [← hincident]
  exact KeyedSet.count_filter_add _

end PropertyGraph

end Synaptica
