import Synaptica.Core.PropertyGraph
import Synaptica.Storage.Effects

/-!
# The graphs in a store

`graphOf` reads a store as one property graph for each graph identifier. The calls of the engine act on
these graphs: a call on a node or an edge of a graph carries out the operation of the same name on that
graph and leaves the other graphs as they are.
-/

open Journaled

namespace Synaptica.Storage

variable {bin : Bincode} {P : Node → Prop} {Q : Edge → Prop} {db db' db'' : Db} {g : GraphId}

/-- A column family holds finitely many records. -/
theorem Layout.finite_records {α : Type} (L : Layout α) (db : Db) :
    {a | ∃ k, L.records db k = some a}.Finite := by
  let decoded := (db L.data).toList.filterMap fun e => (L.codec.deserialize e.2).toOption
  apply (List.finite_toSet decoded).subset
  intro a ha
  obtain ⟨k, hk⟩ := ha
  obtain ⟨v, hv, hdecode⟩ := Layout.records_eq_some.mp hk
  have hentry : (k, v) ∈ (db L.data).toList := (OrderedMap.mem_toList _).mpr hv
  exact List.mem_filterMap.mpr ⟨(k, v), hentry, by rw [hdecode, Except.toOption]⟩

variable (bin db g) in
theorem finite_nodes : {n | HasNode bin db g n}.Finite :=
  ((nodeLayout bin).finite_records db).subset fun _ hn => ⟨_, getNode_eq_ok.mp hn⟩

variable (bin db g) in
theorem finite_edges : {e | HasEdge bin db g e}.Finite :=
  ((edgeLayout bin).finite_records db).subset fun _ he => ⟨_, getEdge_eq_ok.mp he⟩

/-- The stored nodes and edges of a graph. -/
def graphOf (bin : Bincode) (db : Db) (g : GraphId) : PropertyGraph where
  nodes := ⟨{n | HasNode bin db g n}, fun _ h _ h' hid => HasNode.eq_of_id h h' hid, finite_nodes bin db g⟩
  edges := ⟨{e | HasEdge bin db g e}, fun _ h _ h' hid => HasEdge.eq_of_id h h' hid, finite_edges bin db g⟩

theorem mem_nodes_graphOf {n : Node} : n ∈ (graphOf bin db g).nodes ↔ HasNode bin db g n := Iff.rfl

theorem mem_edges_graphOf {e : Edge} : e ∈ (graphOf bin db g).edges ↔ HasEdge bin db g e := Iff.rfl

/-- Only the column families of nodes and edges matter. -/
theorem graphOf_congr (hnodes : db' .nodes = db .nodes) (hedges : db' .edges = db .edges) (g : GraphId) :
    graphOf bin db' g = graphOf bin db g := by
  apply PropertyGraph.ext
  · ext n
    exact hasNode_congr hnodes g n
  · ext e
    exact hasEdge_congr hedges g e

/-- The store holds this graph now in the place of the one it held, and the other graphs are as before. -/
structure Becomes (bin : Bincode) (g : GraphId) (db db' : Db) (G : PropertyGraph) : Prop where
  graph : graphOf bin db' g = G
  others : ∀ g', g' ≠ g → graphOf bin db' g' = graphOf bin db g'

namespace Becomes

variable {G G' : PropertyGraph}

theorem of_congr (hnodes : db' .nodes = db .nodes) (hedges : db' .edges = db .edges) :
    Becomes bin g db db' (graphOf bin db g) :=
  ⟨graphOf_congr hnodes hedges g, fun g' _ => graphOf_congr hnodes hedges g'⟩

theorem refl : Becomes bin g db db (graphOf bin db g) := of_congr rfl rfl

theorem trans (h : Becomes bin g db db' G) (h' : Becomes bin g db' db'' G') : Becomes bin g db db'' G' :=
  ⟨h'.graph, fun g' hg' => (h'.others g' hg').trans (h.others g' hg')⟩

/-! ## The calls -/

theorem putNode (hbin : bin.node.RoundTrips) (h : WellIndexed bin P Q db) {node : Node}
    (hfit : P node) (hok : (StorageEngine.putNode bin node db).result = .ok ()) :
    Becomes bin node.graphId db (exec (StorageEngine.putNode bin node) db)
      ((graphOf bin db node.graphId).putNode node) where
  graph := by
    apply PropertyGraph.ext
    · ext n
      rw [mem_nodes_graphOf, hasNode_putNode hbin h hfit hok]
      simp [PropertyGraph.putNode, mem_nodes_graphOf]
    · ext e
      exact hasEdge_putNode node _ e
  others g' hg' := by
    apply PropertyGraph.ext
    · ext n
      rw [mem_nodes_graphOf, hasNode_putNode hbin h hfit hok]
      simp [hg', mem_nodes_graphOf]
    · ext e
      exact hasEdge_putNode node g' e

theorem putEdge (hbin : bin.edge.RoundTrips) (h : WellIndexed bin P Q db) {edge : Edge}
    (hfit : Q edge) (hok : (StorageEngine.putEdge bin edge db).result = .ok ()) :
    Becomes bin edge.graphId db (exec (StorageEngine.putEdge bin edge) db)
      ((graphOf bin db edge.graphId).putEdge edge) where
  graph := by
    apply PropertyGraph.ext
    · ext n
      exact hasNode_putEdge edge _ n
    · ext e
      rw [mem_edges_graphOf, hasEdge_putEdge hbin h hfit hok]
      simp [PropertyGraph.putEdge, mem_edges_graphOf]
  others g' hg' := by
    apply PropertyGraph.ext
    · ext n
      exact hasNode_putEdge edge g' n
    · ext e
      rw [mem_edges_graphOf, hasEdge_putEdge hbin h hfit hok]
      simp [hg', mem_edges_graphOf]

theorem deleteEdge (h : WellIndexed bin P Q db) (i : EdgeId) :
    Becomes bin g db (exec (StorageEngine.deleteEdge bin g i) db)
      ((graphOf bin db g).removeEdges {i}) where
  graph := by
    apply PropertyGraph.ext
    · ext n
      exact hasNode_deleteEdge i g n
    · ext e
      rw [mem_edges_graphOf, hasEdge_deleteEdge h]
      simp [PropertyGraph.removeEdges, mem_edges_graphOf]
  others g' hg' := by
    apply PropertyGraph.ext
    · ext n
      exact hasNode_deleteEdge i g' n
    · ext e
      rw [mem_edges_graphOf, hasEdge_deleteEdge h]
      simp [hg', mem_edges_graphOf]

/-- A stored node is removed together with the edges at it. -/
theorem deleteNode (h : WellIndexed bin P Q db) {i : NodeId}
    (hok : (StorageEngine.deleteNode bin g i db).result = .ok ()) :
    Becomes bin g db (exec (StorageEngine.deleteNode bin g i) db)
      ((graphOf bin db g).removeNodes {i}) where
  graph := by
    have hstored := (deleteNode_ok_iff h i).mp hok
    apply PropertyGraph.ext
    · ext n
      rw [mem_nodes_graphOf, hasNode_deleteNode h]
      simp [PropertyGraph.removeNodes, mem_nodes_graphOf]
    · ext e
      rw [mem_edges_graphOf, hasEdge_deleteNode h]
      simp [PropertyGraph.removeNodes, mem_edges_graphOf, hstored]
  others g' hg' := by
    apply PropertyGraph.ext
    · ext n
      rw [mem_nodes_graphOf, hasNode_deleteNode h]
      simp [hg', mem_nodes_graphOf]
    · ext e
      rw [mem_edges_graphOf, hasEdge_deleteNode h]
      simp [hg', mem_edges_graphOf]

end Becomes

end Synaptica.Storage
