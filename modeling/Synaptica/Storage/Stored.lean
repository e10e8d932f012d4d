import Synaptica.Lib.Fallible
import Synaptica.Storage.Agreement
import Synaptica.Storage.Renaming

/-!
# The stored nodes and edges

On a store whose indexes follow the data every read of the engine answers with entities that are stored, each once, and
misses none: the scans of a graph and of a label, and the two adjacency reads.
-/

namespace Synaptica.Storage

variable {bin : Bincode} {P : Node → Prop} {Q : Edge → Prop} {db : Db} {g : GraphId}

/-- A stored node of the graph is one of the block of the graph. -/
theorem WellIndexed.hasNode_iff (h : WellIndexed bin P Q db) {n : Node} :
    HasNode bin db g n ↔ (nodeLayout bin).records db ((nodeLayout bin).key n) = some n ∧
      g.asBytes <+: (nodeLayout bin).key n := by
  rw [HasNode, getNode_eq_ok]
  constructor
  · intro hn
    obtain ⟨rfl, -⟩ := h.node_id hn
    exact ⟨hn, graph_prefix_iff.mpr rfl⟩
  · rintro ⟨hn, hg⟩
    rw [graph_prefix_iff.mp hg]
    exact hn

/-- What is found under an identifier is stored under it. -/
theorem WellIndexed.hasNode_of_getNode (h : WellIndexed bin P Q db) {i : NodeId} {n : Node}
    (hn : StorageEngine.getNode bin db g i = .ok n) : HasNode bin db g n ∧ n.id = i := by
  obtain ⟨-, rfl⟩ := h.node_id (getNode_eq_ok.mp hn)
  exact ⟨hn, rfl⟩

theorem WellIndexed.hasEdge_of_getEdge (h : WellIndexed bin P Q db) {i : EdgeId} {e : Edge}
    (he : StorageEngine.getEdge bin db g i = .ok e) : HasEdge bin db g e ∧ e.id = i := by
  obtain ⟨-, rfl⟩ := h.edge_id (getEdge_eq_ok.mp he)
  exact ⟨he, rfl⟩

/-- A node is stored under the identifier, or it is not found. -/
theorem WellIndexed.getNode_cases (h : WellIndexed bin P Q db) (g : GraphId) (i : NodeId) :
    (∃ n, HasNode bin db g n ∧ n.id = i) ∨ ∃ msg, StorageEngine.getNode bin db g i = .error (.notFound msg) := by
  cases hv : (db .nodes)[encodeNodeKey g i]? with
  | none => exact .inr ⟨_, by rw [StorageEngine.getNode, hv]⟩
  | some v =>
    obtain ⟨n, hdecode, -, -⟩ := h.nodes.decodes _ v hv
    refine .inl ⟨n, h.hasNode_of_getNode (getNode_eq_ok.mpr ?_)⟩
    exact Layout.records_eq_some.mpr ⟨v, hv, hdecode⟩

/-- A label scan finds stored nodes only. -/
theorem WellIndexed.hasNode_of_mem_scan (h : WellIndexed bin P Q db) {l : Label} {r : List Node}
    (hr : StorageEngine.scanNodesByLabel bin db g l = .ok r) {n : Node} (hn : n ∈ r) :
    HasNode bin db g n := by
  obtain ⟨e, -, he⟩ := List.exists_of_mem_mapM hr hn
  obtain ⟨u, -, hget⟩ := Except.bind_eq_ok.mp he
  exact (h.hasNode_of_getNode hget).1

/-- The two adjacency reads find stored edges only. -/
theorem WellIndexed.hasEdge_of_mem_adjacent (h : WellIndexed bin P Q db) {c : ColumnFamily}
    {keyPrefix : Bytes} {r : List Edge}
    (hr : StorageEngine.adjacentEdges bin db g c keyPrefix = .ok r) {e : Edge} (he : e ∈ r) :
    HasEdge bin db g e := by
  obtain ⟨entry, -, hentry⟩ := List.exists_of_mem_mapM hr he
  obtain ⟨u, -, hget⟩ := Except.bind_eq_ok.mp hentry
  exact (h.hasEdge_of_getEdge hget).1

/-- The nodes that a scan of the graph finds are the stored ones. -/
theorem WellIndexed.exists_scanNodes (h : WellIndexed bin P Q db) (g : GraphId) :
    ∃ ns, StorageEngine.scanNodes bin db g = .ok ns ∧ ns.Nodup ∧ ∀ n, n ∈ ns ↔ HasNode bin db g n := by
  obtain ⟨ns, hns, hnodup, hmem⟩ := h.nodes.decodes.scan g.asBytes
  exact ⟨ns, hns, hnodup.of_map, fun n => (hmem n).trans h.hasNode_iff.symm⟩

/-- The stored nodes of a graph, in some order. -/
theorem exists_scanNodes (h : Consistent bin db) (g : GraphId) :
    ∃ ns, StorageEngine.scanNodes bin db g = .ok ns ∧ ns.Nodup ∧ (∀ n, n ∈ ns ↔ HasNode bin db g n) ∧
      ∀ l : Label, l.Fits → ∃ r, StorageEngine.scanNodesByLabel bin db g l = .ok r ∧ r.Nodup ∧
        ∀ n, n ∈ r ↔ HasNode bin db g n ∧ l ∈ n.labels := by
  obtain ⟨ns, hns, -, hlabel⟩ := h.agreement.nodes g
  obtain ⟨ns', hns', hnodup, hstored⟩ := (consistent_iff.mp h).exists_scanNodes g
  rw [hns] at hns'
  cases hns'
  refine ⟨ns, hns, hnodup, hstored, fun l hl => ?_⟩
  obtain ⟨r, hr, hperm⟩ := hlabel l hl
  refine ⟨r, hr, hperm.nodup_iff.mpr (hnodup.filter _), fun n => ?_⟩
  rw [hperm.mem_iff, List.mem_filter, hstored, Std.ExtTreeSet.contains_iff_mem]

/-- A stored edge of the graph is one of the block of the graph. -/
theorem WellIndexed.hasEdge_iff (h : WellIndexed bin P Q db) {e : Edge} :
    HasEdge bin db g e ↔ (edgeLayout bin).records db ((edgeLayout bin).key e) = some e ∧
      g.asBytes <+: (edgeLayout bin).key e := by
  rw [HasEdge, getEdge_eq_ok]
  constructor
  · intro he
    obtain ⟨rfl, -⟩ := h.edge_id he
    exact ⟨he, graph_prefix_iff.mpr rfl⟩
  · rintro ⟨he, hg⟩
    rw [graph_prefix_iff.mp hg]
    exact he

/-- The stored edges of a graph, in some order. -/
theorem exists_scanEdges (h : WellIndexed bin P Q db) (g : GraphId) :
    ∃ es, StorageEngine.scanEdges bin db g = .ok es ∧ ∀ e, e ∈ es ↔ HasEdge bin db g e := by
  obtain ⟨es, hes, -, hmem⟩ := h.edges.decodes.scan g.asBytes
  exact ⟨es, hes, fun e => (hmem e).trans h.hasEdge_iff.symm⟩

/-- The stored edges at a node, in some order. -/
theorem exists_adjacent (h : WellIndexed bin P Q db) (g : GraphId) (n : NodeId) (f : Option Label)
    {q : Edge → Bool} (hq : Selects Q f q) :
    (∃ r, StorageEngine.getOutgoingEdges bin db g n f = .ok r ∧ (r.map Edge.id).Nodup ∧
      ∀ e, e ∈ r ↔ HasEdge bin db g e ∧ e.source = n ∧ q e) ∧
    ∃ r, StorageEngine.getIncomingEdges bin db g n f = .ok r ∧ (r.map Edge.id).Nodup ∧
      ∀ e, e ∈ r ↔ HasEdge bin db g e ∧ e.target = n ∧ q e := by
  obtain ⟨es, hes, hnodup, hadj⟩ := edges_agree _ h.edges (by simp [edgeIndexes])
    (by simp [edgeIndexes]) g
  obtain ⟨es', hes', hstored⟩ := exists_scanEdges h g
  rw [hes] at hes'
  cases hes'
  obtain ⟨⟨out, hout, hpout⟩, ⟨inc, hinc, hpinc⟩⟩ := hadj n f q hq
  refine ⟨⟨out, hout, ?_, fun e => ?_⟩, ⟨inc, hinc, ?_, fun e => ?_⟩⟩
  · exact (hpout.map _).nodup_iff.mpr (hnodup.sublist (List.filter_sublist.map _))
  · rw [hpout.mem_iff, List.mem_filter, hstored, Bool.and_eq_true, beq_iff_eq]
  · exact (hpinc.map _).nodup_iff.mpr (hnodup.sublist (List.filter_sublist.map _))
  · rw [hpinc.mem_iff, List.mem_filter, hstored, Bool.and_eq_true, beq_iff_eq]

/-- Identifiers tell stored edges apart. -/
theorem HasEdge.eq_of_id {e e' : Edge} (h : HasEdge bin db g e) (h' : HasEdge bin db g e')
    (hid : e.id = e'.id) : e = e' := by
  rw [HasEdge, hid, h'] at h
  cases h
  rfl

theorem HasNode.eq_of_id {n n' : Node} (h : HasNode bin db g n) (h' : HasNode bin db g n')
    (hid : n.id = n'.id) : n = n' := by
  rw [HasNode, hid, h'] at h
  cases h
  rfl

end Synaptica.Storage
