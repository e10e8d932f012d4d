import Synaptica.Storage.CrashConsistency
import Synaptica.Storage.Index

/-!
# Graphs do not see each other

All graphs share the column families of the store and are separated by key prefixes only. Two facts
make the separation complete:

* every write of a call on a graph goes to a key that starts with the graph's identifier
  (`GraphOp.emits`);
* every read of a graph depends only on entries under such keys (`GraphRead.eval_congr`).

Identifiers all have the same length, so no key starts with two of them. Hence a call on one graph
leaves every read of another unchanged (`graph_isolation`), and after `delete_graph` every read
answers as on an empty store (`deleteGraph_complete`).
-/

namespace Synaptica.Storage

open OrderedMap (scan scan_congr)

/-! ## Calls and reads of a graph -/

/-- A call that changes the data, metadata or indexes of a graph. -/
inductive GraphOp where
  | store (op : StoreOp)
  | putGraphMeta (graphMeta : GraphMeta)
  | createIndex (index : IndexDefinition)
  | dropIndex (graphId : GraphId) (name : String)
  | indexNode (index : IndexDefinition) (node : Node)
  | unindexNode (index : IndexDefinition) (node : Node)
  | indexText (ft : FullTextIndex) (nodeId : NodeId) (text : String)
  | removeText (ft : FullTextIndex) (nodeId : NodeId) (text : String)

def StoreOp.graph : StoreOp → GraphId
  | putNode node => node.graphId
  | putEdge edge => edge.graphId
  | deleteNode graphId _ => graphId
  | deleteEdge graphId _ => graphId
  | deleteGraph graphId => graphId

namespace GraphOp

/-- The graph a call is performed on. -/
def graph : GraphOp → GraphId
  | store op => op.graph
  | putGraphMeta graphMeta => graphMeta.id
  | createIndex index => index.graphId
  | dropIndex graphId _ => graphId
  | indexNode index _ => index.graphId
  | unindexNode index _ => index.graphId
  | indexText ft _ _ => ft.graphId
  | removeText ft _ _ => ft.graphId

def call (rt : Runtime) : GraphOp → StorageM Unit
  | store op => op.call rt.bin
  | putGraphMeta graphMeta => StorageEngine.putGraphMeta rt.bin graphMeta
  | createIndex index => IndexManager.createIndex rt index
  | dropIndex graphId name => IndexManager.dropIndex rt graphId name
  | indexNode index node => IndexManager.indexNode rt index node
  | unindexNode index node => IndexManager.unindexNode rt index node
  | indexText ft nodeId text => FullTextIndex.indexText rt ft nodeId text
  | removeText ft nodeId text => FullTextIndex.removeText rt ft nodeId text

end GraphOp

/-- A read of a graph, by the type of its answer. -/
inductive GraphRead : Type → Type where
  | getGraphMeta (g : GraphId) : GraphRead GraphMeta
  | getNode (g : GraphId) (i : NodeId) : GraphRead Node
  | scanNodes (g : GraphId) : GraphRead (List Node)
  | scanNodesLimit (g : GraphId) (limit : Nat) : GraphRead (List Node)
  | scanNodesByLabel (g : GraphId) (l : Label) : GraphRead (List Node)
  | getEdge (g : GraphId) (i : EdgeId) : GraphRead Edge
  | scanEdges (g : GraphId) : GraphRead (List Edge)
  | scanEdgesLimit (g : GraphId) (limit : Nat) : GraphRead (List Edge)
  | getOutgoingEdges (g : GraphId) (n : NodeId) (f : Option Label) : GraphRead (List Edge)
  | getIncomingEdges (g : GraphId) (n : NodeId) (f : Option Label) : GraphRead (List Edge)
  | exportGraph (g : GraphId) : GraphRead (String × Nat)
  | listIndexes (g : GraphId) : GraphRead (List IndexDefinition)
  | lookup (index : IndexDefinition) (values : List Value) : GraphRead (List NodeId)
  | rangeScan (index : IndexDefinition) (start stop : Value) : GraphRead (List NodeId)
  | search (ft : FullTextIndex) (query : String) : GraphRead (List NodeId)
  | searchPrefix (ft : FullTextIndex) (start : String) : GraphRead (List NodeId)

namespace GraphRead

/-- The graph that is read. -/
def graph {α : Type} : GraphRead α → GraphId
  | getGraphMeta g | getNode g _ | scanNodes g | scanNodesLimit g _ | scanNodesByLabel g _
  | getEdge g _ | scanEdges g | scanEdgesLimit g _ | getOutgoingEdges g _ _ | getIncomingEdges g _ _
  | exportGraph g | listIndexes g => g
  | lookup index _ | rangeScan index _ _ => index.graphId
  | search ft _ | searchPrefix ft _ => ft.graphId

def eval {α : Type} (rt : Runtime) (db : Db) : GraphRead α → StorageResult α
  | getGraphMeta g => StorageEngine.getGraphMeta rt.bin db g
  | getNode g i => StorageEngine.getNode rt.bin db g i
  | scanNodes g => StorageEngine.scanNodes rt.bin db g
  | scanNodesLimit g limit => StorageEngine.scanNodesLimit rt.bin db g limit
  | scanNodesByLabel g l => StorageEngine.scanNodesByLabel rt.bin db g l
  | getEdge g i => StorageEngine.getEdge rt.bin db g i
  | scanEdges g => StorageEngine.scanEdges rt.bin db g
  | scanEdgesLimit g limit => StorageEngine.scanEdgesLimit rt.bin db g limit
  | getOutgoingEdges g n f => StorageEngine.getOutgoingEdges rt.bin db g n f
  | getIncomingEdges g n f => StorageEngine.getIncomingEdges rt.bin db g n f
  | exportGraph g => StorageEngine.exportGraph rt.bin rt.formats db g
  | listIndexes g => IndexManager.listIndexes rt db g
  | lookup index values => IndexManager.lookup rt db index values
  | rangeScan index start stop => IndexManager.rangeScan rt db index start stop
  | search ft query => FullTextIndex.search rt ft db query
  | searchPrefix ft start => FullTextIndex.searchPrefix rt ft db start

end GraphRead

/-! ## Writes stay inside the graph -/

/-- Every operation of the batch is on a key of the graph. -/
def Within (g : GraphId) (batch : WriteBatch) : Prop := ∀ op ∈ batch, g.asBytes <+: op.key

/-! Every key layout starts with the graph. -/

section Prefixes

variable (g : GraphId)

theorem prefix_encodeNodeKey (i : NodeId) : g.asBytes <+: encodeNodeKey g i := List.prefix_append _ _

theorem prefix_encodeEdgeKey (i : EdgeId) : g.asBytes <+: encodeEdgeKey g i := List.prefix_append _ _

theorem prefix_encodeNodeLabelKey (l : Label) (i : NodeId) :
    g.asBytes <+: encodeNodeLabelKey g l i := by
  rw [encodeNodeLabelKey, List.append_assoc]
  exact List.prefix_append _ _

theorem prefix_encodeEdgeLabelKey (l : Label) (i : EdgeId) :
    g.asBytes <+: encodeEdgeLabelKey g l i := by
  rw [encodeEdgeLabelKey, List.append_assoc]
  exact List.prefix_append _ _

theorem prefix_adjKey (n : NodeId) (l : Label) (i : EdgeId) : g.asBytes <+: adjKey g n l i := by
  rw [adjKey, List.append_assoc, List.append_assoc]
  exact List.prefix_append _ _

theorem prefix_adjacencyPrefix (n : NodeId) (f : Option Label) :
    g.asBytes <+: adjacencyPrefix g n f := by
  cases f with
  | none => exact List.prefix_append _ _
  | some l =>
    rw [adjacencyPrefix, adjLabelPrefix, List.append_assoc]
    exact List.prefix_append _ _

theorem prefix_encodeNodeLabelPrefix (l : Label) : g.asBytes <+: encodeNodeLabelPrefix g l :=
  List.prefix_append _ _

theorem prefix_metaPrefix : g.asBytes <+: IndexManager.metaPrefix g := List.prefix_append _ _

theorem prefix_metaKey (name : String) : g.asBytes <+: IndexManager.metaKey g name :=
  List.prefix_append _ _

variable {g} (rt : Runtime)

theorem prefix_entryPrefix (index : IndexDefinition) :
    index.graphId.asBytes <+: IndexManager.entryPrefix rt index := List.prefix_append _ _

theorem prefix_entryValuePrefix (index : IndexDefinition) (vals : Bytes) :
    index.graphId.asBytes <+: IndexManager.entryValuePrefix rt index vals :=
  (prefix_entryPrefix rt index).trans (List.prefix_append _ _)

theorem prefix_entryKey (index : IndexDefinition) (vals : Bytes) (i : NodeId) :
    index.graphId.asBytes <+: IndexManager.entryKey rt index vals i :=
  (prefix_entryValuePrefix rt index vals).trans (List.prefix_append _ _)

theorem prefix_namePrefix (ft : FullTextIndex) : ft.graphId.asBytes <+: ft.namePrefix rt :=
  List.prefix_append _ _

theorem prefix_fullTextKey (ft : FullTextIndex) (token : String) (i : NodeId) :
    ft.graphId.asBytes <+: ft.entryKey rt token i := by
  rw [FullTextIndex.entryKey, List.append_assoc]
  exact (prefix_namePrefix rt ft).trans (List.prefix_append _ _)

theorem prefix_tokenPrefix (ft : FullTextIndex) (token : String) :
    ft.graphId.asBytes <+: ft.tokenPrefix rt token := by
  rw [FullTextIndex.tokenPrefix, List.append_assoc]
  exact (prefix_namePrefix rt ft).trans (List.prefix_append _ _)

theorem prefix_tokenScanPrefix (ft : FullTextIndex) (token : String) :
    ft.graphId.asBytes <+: ft.tokenScanPrefix rt token :=
  (prefix_namePrefix rt ft).trans (List.prefix_append _ _)

end Prefixes

section Emits

open Journaled

variable (rt : Runtime)

theorem within_deletes {g : GraphId} {db : Db} {c : ColumnFamily} {p : Bytes} (hp : g.asBytes <+: p) :
    Within g ((scan (db c) p).map fun e => .delete c e.1) := by
  intro op hop
  obtain ⟨e, he, rfl⟩ := List.mem_map.mp hop
  exact hp.trans ((OrderedMap.mem_scan _).mp he).2

theorem dropEdgeEntries_within (g : GraphId) (i : EdgeId) (edge : Edge) :
    Within g (StorageEngine.dropEdgeEntries g i edge) := by
  simp only [Within, StorageEngine.dropEdgeEntries, List.mem_cons, List.not_mem_nil, or_false]
  rintro op (rfl | rfl | rfl)
  · exact prefix_adjKey g _ _ _
  · exact prefix_adjKey g _ _ _
  · exact prefix_encodeEdgeLabelKey g _ _

theorem deleteEdge_emits (g : GraphId) (i : EdgeId) :
    Emits (Within g) (StorageEngine.deleteEdge rt.bin g i) := by
  unfold StorageEngine.deleteEdge
  refine emits_bind (emits_read _) fun edge => ?_
  refine emits_write ?_
  intro op hop
  rcases List.mem_cons.mp hop with rfl | hop
  · exact prefix_encodeEdgeKey g i
  · exact dropEdgeEntries_within g i edge op hop

theorem deleteConnected_emits (g : GraphId) (seen : List EdgeId) (edges : List Edge) :
    Emits (Within g) (StorageEngine.deleteConnected rt.bin g seen edges) := by
  induction edges generalizing seen with
  | nil => exact emits_pure _
  | cons edge edges ih =>
    rw [StorageEngine.deleteConnected]
    split
    · exact ih seen
    · exact emits_bind (deleteEdge_emits rt g _) fun _ => ih _

theorem StoreOp.emits (op : StoreOp) : Emits (Within op.graph) (op.call rt.bin) := by
  cases op with
  | putNode node =>
    unfold StoreOp.call StorageEngine.putNode
    refine emits_bind (emits_read _) fun stale => ?_
    refine emits_bind (emits_read _) fun value => ?_
    refine emits_write ?_
    simp only [Within, StorageEngine.putNodeBatch, List.mem_append, List.mem_cons, List.mem_map]
    rintro op (⟨l, -, rfl⟩ | rfl | ⟨l, -, rfl⟩)
    · exact prefix_encodeNodeLabelKey _ _ _
    · exact prefix_encodeNodeKey _ _
    · exact prefix_encodeNodeLabelKey _ _ _
  | putEdge edge =>
    unfold StoreOp.call StorageEngine.putEdge
    refine emits_bind (emits_read _) fun stale => ?_
    refine emits_bind (emits_read _) fun value => ?_
    refine emits_write ?_
    intro op hop
    rcases List.mem_append.mp hop with hop | hop
    · cases stale with
      | none => cases hop
      | some old => exact dropEdgeEntries_within _ _ _ op hop
    · simp only [List.mem_cons, List.not_mem_nil, or_false] at hop
      rcases hop with rfl | rfl | rfl | rfl
      · exact prefix_encodeEdgeKey _ _
      · exact prefix_adjKey _ _ _ _
      · exact prefix_adjKey _ _ _ _
      · exact prefix_encodeEdgeLabelKey _ _ _
  | deleteNode g i =>
    unfold StoreOp.call StorageEngine.deleteNode
    refine emits_bind (emits_read _) fun node => ?_
    refine emits_bind (emits_read _) fun outgoing => ?_
    refine emits_bind (emits_read _) fun incoming => ?_
    refine emits_bind (deleteConnected_emits rt g _ _) fun _ => ?_
    refine emits_write ?_
    simp only [Within, StorageEngine.deleteNodeBatch, List.mem_cons, List.mem_map]
    rintro op (rfl | ⟨l, -, rfl⟩)
    · exact prefix_encodeNodeKey _ _
    · exact prefix_encodeNodeLabelKey _ _ _
  | deleteEdge g i => exact deleteEdge_emits rt g i
  | deleteGraph g =>
    intro db batch hbatch
    rw [StoreOp.call, deleteGraph_writes, List.mem_append, List.mem_map, List.mem_singleton] at hbatch
    rcases hbatch with ⟨c, -, rfl⟩ | rfl
    · exact within_deletes (List.prefix_refl _)
    · simp [Within, WriteOp.key, encodeGraphMetaKey, StoreOp.graph]

/-- **Every write of a call goes to keys of its graph.** -/
theorem GraphOp.emits (op : GraphOp) : Emits (Within op.graph) (op.call rt) := by
  cases op with
  | store op => exact op.emits rt
  | putGraphMeta graphMeta =>
    unfold GraphOp.call StorageEngine.putGraphMeta
    refine emits_bind (emits_read _) fun value => ?_
    refine emits_write ?_
    simp [Within, WriteOp.key, encodeGraphMetaKey, GraphOp.graph]
  | createIndex index =>
    unfold GraphOp.call IndexManager.createIndex
    refine emits_bind (emits_read _) fun value => ?_
    refine emits_write ?_
    simpa [Within, WriteOp.key, GraphOp.graph] using prefix_metaKey index.graphId index.name
  | dropIndex g name =>
    unfold GraphOp.call IndexManager.dropIndex
    apply emits_bind
    · refine emits_write ?_
      simpa [Within, WriteOp.key, GraphOp.graph] using prefix_metaKey g name
    · intro _ db batch hbatch
      rw [bind_ok rfl] at hbatch
      obtain rfl := List.mem_singleton.mp hbatch
      exact within_deletes (prefix_entryPrefix rt ⟨name, g, .node, [], false⟩)
  | indexNode index node =>
    have hput : Emits (Within index.graphId)
        (putCf .propIndex (IndexManager.entryKey rt index (encodeProperties rt index node) node.id)
          []) := by
      refine emits_write ?_
      simpa [Within, WriteOp.key] using prefix_entryKey rt index _ node.id
    unfold GraphOp.call IndexManager.indexNode
    dsimp only
    split
    · refine emits_bind (emits_read _) fun duplicate => ?_
      split
      · exact emits_read _
      · exact hput
    · exact hput
  | unindexNode index node =>
    refine emits_write ?_
    simpa [Within, WriteOp.key, GraphOp.graph] using prefix_entryKey rt index _ node.id
  | indexText ft i text =>
    refine emits_write ?_
    intro op hop
    obtain ⟨t, -, rfl⟩ := List.mem_map.mp hop
    exact prefix_fullTextKey rt ft t i
  | removeText ft i text =>
    refine emits_write ?_
    intro op hop
    obtain ⟨t, -, rfl⟩ := List.mem_map.mp hop
    exact prefix_fullTextKey rt ft t i

end Emits

/-! ## Reads look at the graph only -/

/-- Two stores hold the same entries for a graph. -/
structure SameGraph (g : GraphId) (db db' : Db) : Prop where
  data : ∀ c ∈ StorageEngine.dataCfs, ∀ k, g.asBytes <+: k → (db c)[k]? = (db' c)[k]?
  graphMeta : (db .graphMeta)[encodeGraphMetaKey g]? = (db' .graphMeta)[encodeGraphMetaKey g]?

section Congr

variable {g : GraphId} {db db' : Db}

theorem SameGraph.scan (h : SameGraph g db db') (c : ColumnFamily) (hc : c ∈ StorageEngine.dataCfs)
    {p : Bytes} (hp : g.asBytes <+: p) : scan (db c) p = scan (db' c) p :=
  scan_congr fun k hk => h.data c hc k (hp.trans hk)

variable (rt : Runtime)

theorem SameGraph.getNode (h : SameGraph g db db') (i : NodeId) :
    StorageEngine.getNode rt.bin db g i = StorageEngine.getNode rt.bin db' g i := by
  unfold StorageEngine.getNode
  rw [h.data .nodes (by decide) _ (prefix_encodeNodeKey g i)]

theorem SameGraph.getEdge (h : SameGraph g db db') (i : EdgeId) :
    StorageEngine.getEdge rt.bin db g i = StorageEngine.getEdge rt.bin db' g i := by
  unfold StorageEngine.getEdge
  rw [h.data .edges (by decide) _ (prefix_encodeEdgeKey g i)]

theorem SameGraph.nodeBlock (h : SameGraph g db db') :
    OrderedMap.scan (db .nodes) (encodeNodePrefix g) =
      OrderedMap.scan (db' .nodes) (encodeNodePrefix g) :=
  h.scan .nodes (by decide) (List.prefix_refl _)

theorem SameGraph.edgeBlock (h : SameGraph g db db') :
    OrderedMap.scan (db .edges) (encodeEdgePrefix g) =
      OrderedMap.scan (db' .edges) (encodeEdgePrefix g) :=
  h.scan .edges (by decide) (List.prefix_refl _)

theorem SameGraph.scanNodes (h : SameGraph g db db') :
    StorageEngine.scanNodes rt.bin db g = StorageEngine.scanNodes rt.bin db' g := by
  unfold StorageEngine.scanNodes
  rw [h.nodeBlock]

theorem SameGraph.scanEdges (h : SameGraph g db db') :
    StorageEngine.scanEdges rt.bin db g = StorageEngine.scanEdges rt.bin db' g := by
  unfold StorageEngine.scanEdges
  rw [h.edgeBlock]

theorem SameGraph.scanNodesLimit (h : SameGraph g db db') (limit : Nat) :
    StorageEngine.scanNodesLimit rt.bin db g limit = StorageEngine.scanNodesLimit rt.bin db' g limit := by
  unfold StorageEngine.scanNodesLimit
  rw [h.nodeBlock]

theorem SameGraph.scanEdgesLimit (h : SameGraph g db db') (limit : Nat) :
    StorageEngine.scanEdgesLimit rt.bin db g limit = StorageEngine.scanEdgesLimit rt.bin db' g limit := by
  unfold StorageEngine.scanEdgesLimit
  rw [h.edgeBlock]

theorem SameGraph.exportGraph (h : SameGraph g db db') :
    StorageEngine.exportGraph rt.bin rt.formats db g =
      StorageEngine.exportGraph rt.bin rt.formats db' g := by
  unfold StorageEngine.exportGraph
  rw [h.scanNodes, h.scanEdges]

theorem SameGraph.scanNodesByLabel (h : SameGraph g db db') (l : Label) :
    StorageEngine.scanNodesByLabel rt.bin db g l = StorageEngine.scanNodesByLabel rt.bin db' g l := by
  unfold StorageEngine.scanNodesByLabel
  simp only [h.scan .nodeLabels (by decide) (prefix_encodeNodeLabelPrefix g l), h.getNode rt]

theorem SameGraph.adjacentEdges (h : SameGraph g db db') {c : ColumnFamily}
    (hc : c ∈ StorageEngine.dataCfs) (n : NodeId) (f : Option Label) :
    StorageEngine.adjacentEdges rt.bin db g c (adjacencyPrefix g n f) =
      StorageEngine.adjacentEdges rt.bin db' g c (adjacencyPrefix g n f) := by
  unfold StorageEngine.adjacentEdges
  simp only [h.scan c hc (prefix_adjacencyPrefix g n f), h.getEdge rt]

theorem SameGraph.scanPrefixIds (h : SameGraph g db db') {p : Bytes} (hp : g.asBytes <+: p) :
    FullTextIndex.scanPrefixIds db p = FullTextIndex.scanPrefixIds db' p := by
  unfold FullTextIndex.scanPrefixIds
  rw [h.scan .propIndex (by decide) hp]

variable (ft : FullTextIndex)

theorem SameGraph.intersectPostings (h : SameGraph ft.graphId db db') (result : OrderedSet NodeId)
    (tokens : List String) :
    ft.intersectPostings rt db result tokens = ft.intersectPostings rt db' result tokens := by
  induction tokens generalizing result with
  | nil => rfl
  | cons token tokens ih =>
    simp only [FullTextIndex.intersectPostings, h.scanPrefixIds (prefix_tokenPrefix rt ft token), ih]

theorem SameGraph.search (h : SameGraph ft.graphId db db') (query : String) :
    ft.search rt db query = ft.search rt db' query := by
  unfold FullTextIndex.search
  split
  · rfl
  · rw [h.scanPrefixIds (prefix_tokenPrefix rt ft _)]
    simp only [h.intersectPostings]

theorem SameGraph.searchPrefix (h : SameGraph ft.graphId db db') (start : String) :
    ft.searchPrefix rt db start = ft.searchPrefix rt db' start := by
  unfold FullTextIndex.searchPrefix
  rw [h.scanPrefixIds (prefix_tokenScanPrefix rt ft _)]

variable (index : IndexDefinition)

theorem SameGraph.lookup (h : SameGraph index.graphId db db') (values : List Value) :
    IndexManager.lookup rt db index values = IndexManager.lookup rt db' index values := by
  unfold IndexManager.lookup
  rw [h.scan .propIndex (by decide) (prefix_entryValuePrefix rt index _)]

theorem SameGraph.rangeScan (h : SameGraph index.graphId db db') (start stop : Value) :
    IndexManager.rangeScan rt db index start stop = IndexManager.rangeScan rt db' index start stop := by
  unfold IndexManager.rangeScan
  dsimp only
  rw [OrderedMap.takeWhile_seek_eq_filter_scan _ (List.prefix_append _ _),
    OrderedMap.takeWhile_seek_eq_filter_scan _ (List.prefix_append _ _),
    h.scan .propIndex (by decide) (prefix_entryPrefix rt index)]

theorem SameGraph.listIndexes (h : SameGraph g db db') :
    IndexManager.listIndexes rt db g = IndexManager.listIndexes rt db' g := by
  unfold IndexManager.listIndexes
  rw [h.scan .propIndex (by decide) (prefix_metaPrefix g)]

theorem SameGraph.getGraphMeta (h : SameGraph g db db') :
    StorageEngine.getGraphMeta rt.bin db g = StorageEngine.getGraphMeta rt.bin db' g := by
  unfold StorageEngine.getGraphMeta
  rw [h.graphMeta]

/-- **A read of a graph depends on the entries of the graph only.** -/
theorem GraphRead.eval_congr {α : Type} (r : GraphRead α) (h : SameGraph r.graph db db') :
    r.eval rt db = r.eval rt db' := by
  cases r with
  | getGraphMeta g => exact h.getGraphMeta rt
  | getNode g i => exact h.getNode rt i
  | scanNodes g => exact h.scanNodes rt
  | scanNodesLimit g limit => exact h.scanNodesLimit rt limit
  | scanNodesByLabel g l => exact h.scanNodesByLabel rt l
  | getEdge g i => exact h.getEdge rt i
  | scanEdges g => exact h.scanEdges rt
  | scanEdgesLimit g limit => exact h.scanEdgesLimit rt limit
  | getOutgoingEdges g n f => exact h.adjacentEdges rt (by decide) n f
  | getIncomingEdges g n f => exact h.adjacentEdges rt (by decide) n f
  | exportGraph g => exact h.exportGraph rt
  | listIndexes g => exact h.listIndexes rt
  | lookup index values => exact SameGraph.lookup rt index h values
  | rangeScan index start stop => exact SameGraph.rangeScan rt index h start stop
  | search ft query => exact SameGraph.search rt ft h query
  | searchPrefix ft start => exact SameGraph.searchPrefix rt ft h start

end Congr

/-! ## Isolation and complete drop -/

/-- Keys of one graph are not keys of another. -/
theorem Within.sameGraph {g g' : GraphId} (hne : g ≠ g') {db : Db} {batch : WriteBatch}
    (h : Within g batch) : SameGraph g' (db.write batch) db := by
  have hkey : ∀ c k, g'.asBytes <+: k → (db.write batch c)[k]? = (db c)[k]? := by
    intro c k hk
    apply Db.getElem?_write_of_forall_ne
    rintro op hop ⟨-, rfl⟩
    apply hne
    have := List.prefix_of_prefix_length_le (h op hop) hk (by simp)
    exact GraphId.asBytes_injective (this.eq_of_length (by simp))
  exact ⟨fun c _ k hk => hkey c k hk, hkey _ _ (List.prefix_refl _)⟩

theorem SameGraph.trans {g : GraphId} {a b c : Db} (hab : SameGraph g a b) (hbc : SameGraph g b c) :
    SameGraph g a c where
  data d hd k hk := (hab.data d hd k hk).trans (hbc.data d hd k hk)
  graphMeta := hab.graphMeta.trans hbc.graphMeta

theorem SameGraph.writeAll {g g' : GraphId} (hne : g ≠ g') {batches : List WriteBatch}
    (h : ∀ batch ∈ batches, Within g batch) (db : Db) :
    SameGraph g' (Writable.writeAll db batches) db := by
  induction batches generalizing db with
  | nil => exact ⟨fun _ _ _ _ => rfl, rfl⟩
  | cons batch batches ih =>
    rw [Writable.writeAll_cons]
    have hrest := ih (fun b hb => h b (List.mem_cons_of_mem _ hb)) (Writable.write db batch)
    exact hrest.trans ((h batch List.mem_cons_self).sameGraph hne)

/-- After `delete_graph` the store holds nothing of the graph. -/
theorem deleteGraph_sameGraph (g : GraphId) (db : Db) :
    SameGraph g (Journaled.exec (StorageEngine.deleteGraph g) db) Db.empty where
  data c hc k hk := by
    rw [deleteGraph_exec g db hc, if_pos hk]
    simp [Db.empty]
  graphMeta := by
    rw [Journaled.exec, deleteGraph_writes, Writable.writeAll_append, Writable.writeAll_cons,
      Writable.writeAll_nil]
    show ((Db.write _ [WriteOp.delete .graphMeta _]) .graphMeta)[encodeGraphMetaKey g]? = _
    rw [Db.write_cons, Db.write_nil, Db.getElem?_apply]
    simp [WriteOp.cf, WriteOp.key, WriteOp.result, Db.empty]

/-- **Graph isolation and complete drop.** In every state of the store, a call on a graph leaves every
read of another graph unchanged, and after `delete_graph` every read of the graph answers as on an
empty store. -/
theorem graph_isolation (rt : Runtime) (db : Db) :
    (∀ (op : GraphOp) {α : Type} (r : GraphRead α), op.graph ≠ r.graph →
      r.eval rt (Journaled.exec (op.call rt) db) = r.eval rt db) ∧
    ∀ {α : Type} (r : GraphRead α),
      r.eval rt (Journaled.exec ((GraphOp.store (.deleteGraph r.graph)).call rt) db) =
        r.eval rt Db.empty := by
  constructor
  · intro op α r hne
    apply r.eval_congr
    exact SameGraph.writeAll hne (op.emits rt db) db
  · intro α r
    exact r.eval_congr rt (deleteGraph_sameGraph r.graph db)

/-- A runtime for concrete stores of nodes and edges, which hash no index name, split no text and
format no value. -/
def sampleRuntime : Runtime where
  bin := sampleBincode
  hash _ := 0
  toLowercase s := s
  isAlphanumeric := Char.isAlphanum
  formats := ⟨fun _ => "", fun _ => "", fun _ => "", fun _ => ""⟩

def otherGraph : GraphId := ⟨sampleId 8⟩

/-- Storing a node leaves the scan of another graph as it was, and dropping its graph removes it. -/
theorem graph_isolation_sample :
    (sampleGraph ≠ otherGraph ∧
      (GraphRead.scanNodes otherGraph).eval sampleRuntime
        (Journaled.exec ((GraphOp.store (.putNode person)).call sampleRuntime) Db.empty) =
      (GraphRead.scanNodes otherGraph).eval sampleRuntime Db.empty) ∧
    (GraphRead.scanNodes sampleGraph).eval sampleRuntime
      (Journaled.exec ((GraphOp.store (.deleteGraph sampleGraph)).call sampleRuntime)
        (storeRun sampleBincode relabelling)) =
      (GraphRead.scanNodes sampleGraph).eval sampleRuntime Db.empty :=
  ⟨⟨by decide, (graph_isolation sampleRuntime Db.empty).1 (.store (.putNode person))
      (.scanNodes otherGraph) (by decide)⟩,
    (graph_isolation sampleRuntime (storeRun sampleBincode relabelling)).2 (.scanNodes sampleGraph)⟩

end Synaptica.Storage
