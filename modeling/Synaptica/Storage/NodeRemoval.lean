import Synaptica.Storage.CrashConsistency
import Synaptica.Storage.Effects

/-!
# Deleting a node

`delete_node` reads the edges at the node through both adjacency indexes, deletes them one after the
other, and then deletes the node. A self-loop is read twice, and deleting an edge that is gone is an
error, so that the call succeeds rests on the set of edges it has already deleted. After any run of
calls it removes the node, the edges at it and their index entries, and nothing else
(`removed_deleteNode`).
-/

open Journaled

namespace Synaptica.Storage

variable {bin : Bincode} {P : Node → Prop} {Q : Edge → Prop} {db : Db} {g : GraphId}

/-! ## What is removed -/

/-- The edge has an end at the node. -/
def Touches (e : Edge) (i : NodeId) : Prop := e.source = i ∨ e.target = i

/-- The keys under which a node is stored and indexed. -/
def nodeKeys (n : Node) : List Bytes :=
  encodeNodeKey n.graphId n.id :: n.labels.toList.map fun l => encodeNodeLabelKey n.graphId l n.id

/-- The keys under which an edge is stored and indexed. -/
def edgeKeys (e : Edge) : List Bytes :=
  [encodeEdgeKey e.graphId e.id, encodeAdjOutKey e.graphId e.source e.label e.id,
    encodeAdjInKey e.graphId e.target e.label e.id, encodeEdgeLabelKey e.graphId e.label e.id]

/-- `db'` is `db` without the node `i` of the graph `g` and the edges at it. -/
structure Removed (bin : Bincode) (db db' : Db) (g : GraphId) (i : NodeId) : Prop where
  absent : ∃ msg, StorageEngine.getNode bin db' g i = .error (.notFound msg)
  detached : ∀ e, HasEdge bin db' g e → ¬ Touches e i
  labelScan : ∀ l r, StorageEngine.scanNodesByLabel bin db' g l = .ok r → ∀ n ∈ r, n.id ≠ i
  outgoing : ∀ m f r, StorageEngine.getOutgoingEdges bin db' g m f = .ok r → ∀ e ∈ r, ¬ Touches e i
  incoming : ∀ m f r, StorageEngine.getIncomingEdges bin db' g m f = .ok r → ∀ e ∈ r, ¬ Touches e i
  otherNodes : ∀ g' n, ¬ (g' = g ∧ n.id = i) → (HasNode bin db' g' n ↔ HasNode bin db g' n)
  otherEdges : ∀ g' e, ¬ (g' = g ∧ Touches e i) → (HasEdge bin db' g' e ↔ HasEdge bin db g' e)
  /-- No other entry of any column family has changed. -/
  frame : ∀ c k, (∀ n, HasNode bin db g n → n.id = i → k ∉ nodeKeys n) →
    (∀ e, HasEdge bin db g e → Touches e i → k ∉ edgeKeys e) → (db' c)[k]? = (db c)[k]?

/-! ## The frame of a deletion -/

section Frame

variable {c : ColumnFamily} {k : Bytes}

/-- Deleting an edge touches its own entries only. -/
theorem deleteEdge_frame (h : WellIndexed bin P Q db) {i : EdgeId}
    (hk : ∀ e, HasEdge bin db g e → e.id = i → k ∉ edgeKeys e) :
    (exec (StorageEngine.deleteEdge bin g i) db c)[k]? = (db c)[k]? := by
  rcases deleteEdge_cases bin (g := g) i db with ⟨_, -, -, hexec⟩ | ⟨edge, hedge, -, hexec⟩
  · rw [hexec]
  · obtain ⟨hstored, rfl⟩ := h.hasEdge_of_getEdge hedge
    obtain ⟨rfl, -⟩ := h.edge_id (getEdge_eq_ok.mp hstored)
    have hnot := hk edge hstored rfl
    rw [hexec]
    apply Db.getElem?_write_of_forall_ne
    intro op hop hsame
    apply hnot
    rw [← hsame.2]
    simp only [StorageEngine.dropEdgeEntries, List.mem_cons, List.not_mem_nil, or_false] at hop
    rcases hop with rfl | rfl | rfl | rfl <;> simp [edgeKeys, WriteOp.key]

/-- The loop of `delete_node` touches the entries of edges in its list only. -/
theorem deleteConnected_frame (h : WellIndexed bin P Q db) {seen : List EdgeId} {edges : List Edge}
    (hk : ∀ e, HasEdge bin db g e → e.id ∈ edges.map Edge.id → k ∉ edgeKeys e) :
    (exec (StorageEngine.deleteConnected bin g seen edges) db c)[k]? = (db c)[k]? := by
  induction edges generalizing seen db with
  | nil => rfl
  | cons edge edges ih =>
    have hrest : ∀ e, HasEdge bin db g e → e.id ∈ edges.map Edge.id → k ∉ edgeKeys e := fun e he hid =>
      hk e he (List.mem_cons_of_mem _ hid)
    by_cases hnew : edge.id ∈ seen
    · rw [StorageEngine.deleteConnected, if_pos hnew]
      exact ih h hrest
    · rcases deleteConnected_cons hnew edges db with ⟨_, -, -, hexec⟩ | ⟨-, hexec⟩
      · rw [hexec]
      · rw [hexec, ih (deleteEdge_keeps h).exec fun e he =>
          hrest e ((hasEdge_deleteEdge h edge.id g e).mp he).1]
        exact deleteEdge_frame h fun e he hid => hk e he (by rw [hid]; exact List.mem_cons_self)

/-- `delete_node` touches the entries of the node and of the edges at it only. -/
theorem deleteNode_frame (h : WellIndexed bin P Q db) {i : NodeId}
    (hnode : ∀ n, HasNode bin db g n → n.id = i → k ∉ nodeKeys n)
    (hedge : ∀ e, HasEdge bin db g e → Touches e i → k ∉ edgeKeys e) :
    (exec (StorageEngine.deleteNode bin g i) db c)[k]? = (db c)[k]? := by
  rcases deleteNode_cases (g := g) h i with
    ⟨_, -, -, hexec⟩ | ⟨node, edges, hget, hmem, -, -, hexec⟩
  · rw [hexec]
  · obtain ⟨hstored, rfl⟩ := h.hasNode_of_getNode hget
    obtain ⟨rfl, -⟩ := h.node_id (getNode_eq_ok.mp hstored)
    have hnot := hnode node hstored rfl
    have hbatch : ∀ op ∈ StorageEngine.deleteNodeBatch node.graphId node.id node,
        ¬ (op.cf = c ∧ op.key = k) := by
      intro op hop hsame
      apply hnot
      rw [← hsame.2]
      simp only [StorageEngine.deleteNodeBatch, List.mem_cons, List.mem_map] at hop
      rcases hop with rfl | ⟨l, hl, rfl⟩
      · exact List.mem_cons_self
      · exact List.mem_cons_of_mem _ (List.mem_map.mpr ⟨l, hl, rfl⟩)
    rw [hexec, Db.getElem?_write_of_forall_ne hbatch]
    refine deleteConnected_frame h fun e he hid => ?_
    obtain ⟨e', he', hsame⟩ := List.mem_map.mp hid
    obtain ⟨hstored', htouches⟩ := (hmem e').mp he'
    rw [← hstored'.eq_of_id he hsame]
    exact hedge e' hstored' htouches

end Frame

/-! ## What is left -/

/-- Deleting a stored node removes it. -/
theorem removed_deleteNode (h : WellIndexed bin P Q db) {n : Node} (hn : HasNode bin db g n) :
    (StorageEngine.deleteNode bin g n.id db).result = .ok () ∧
      Removed bin db (exec (StorageEngine.deleteNode bin g n.id) db) g n.id := by
  have hstored : ∃ m, HasNode bin db g m ∧ m.id = n.id := ⟨n, hn, rfl⟩
  have hleft := (deleteNode_keeps (g := g) (i := n.id) h).exec
  have hnodes := hasNode_deleteNode (g := g) h n.id
  have hedges := hasEdge_deleteNode (g := g) h n.id
  have hdetached : ∀ e, HasEdge bin (exec (StorageEngine.deleteNode bin g n.id) db) g e →
      ¬ Touches e n.id := fun e he htouches => ((hedges g e).mp he).2 ⟨rfl, htouches, hstored⟩
  refine ⟨(deleteNode_ok_iff h n.id).mpr hstored, ?_, hdetached, ?_, ?_, ?_, ?_, ?_, ?_⟩
  · rcases hleft.getNode_cases g n.id with ⟨m, hm, hid⟩ | hmissing
    · exact absurd ⟨rfl, hid⟩ ((hnodes g m).mp hm).2
    · exact hmissing
  · intro l r hr m hm hid
    exact ((hnodes g m).mp (hleft.hasNode_of_mem_scan hr hm)).2 ⟨rfl, hid⟩
  · intro m f r hr e he
    exact hdetached e (hleft.hasEdge_of_mem_adjacent hr he)
  · intro m f r hr e he
    exact hdetached e (hleft.hasEdge_of_mem_adjacent hr he)
  · intro g' m hother
    rw [hnodes g' m]
    exact and_iff_left hother
  · intro g' e hother
    rw [hedges g' e]
    exact and_iff_left fun hgone => hother ⟨hgone.1, hgone.2.1⟩
  · exact fun c k hnode hedge => deleteNode_frame h hnode hedge

/-- Every completed call keeps the indexes in step with the data, whatever the labels. -/
theorem storeStep_wellIndexed {op : StoreOp} (hnode : bin.node.RoundTrips) (hedge : bin.edge.RoundTrips)
    (h : WellIndexed bin (fun _ => True) (fun _ => True) db) :
    WellIndexed bin (fun _ => True) (fun _ => True) (storeStep bin db op) := by
  cases op with
  | putNode node => exact (putNode_keeps hnode trivial h).exec
  | putEdge edge => exact (putEdge_keeps hedge trivial h).exec
  | deleteNode g i => exact (deleteNode_keeps h).exec
  | deleteEdge g i => exact (deleteEdge_keeps h).exec
  | deleteGraph g => exact deleteGraph_wellIndexed h

theorem storeRun_wellIndexed (hnode : bin.node.RoundTrips) (hedge : bin.edge.RoundTrips)
    (ops : List StoreOp) : WellIndexed bin (fun _ => True) (fun _ => True) (storeRun bin ops) := by
  apply Run.invariant (WellIndexed bin (fun _ => True) (fun _ => True)) _ wellIndexed_empty
    (Run.each_true _ ops)
  intro db op h _
  exact storeStep_wellIndexed hnode hedge h

/-- **Deleting a node removes exactly the node and the edges at it**, after any run of calls. -/
theorem storeRun_removed (hnode : bin.node.RoundTrips) (hedge : bin.edge.RoundTrips)
    (ops : List StoreOp) {g : GraphId} {n : Node} (hn : HasNode bin (storeRun bin ops) g n) :
    (StorageEngine.deleteNode bin g n.id (storeRun bin ops)).result = .ok () ∧
      Removed bin (storeRun bin ops)
        (exec (StorageEngine.deleteNode bin g n.id) (storeRun bin ops)) g n.id :=
  removed_deleteNode (storeRun_wellIndexed hnode hedge ops) hn

/-- A node with a self-loop. -/
theorem storeRun_removed_relabelling :
    (StorageEngine.deleteNode sampleBincode sampleGraph admin.id (storeRun sampleBincode relabelling)).result
        = .ok () ∧
      Removed sampleBincode (storeRun sampleBincode relabelling)
        (exec (StorageEngine.deleteNode sampleBincode sampleGraph admin.id)
          (storeRun sampleBincode relabelling)) sampleGraph admin.id :=
  storeRun_removed sampleBincode_roundTrips.1 sampleBincode_roundTrips.2 relabelling
    (by decide)

end Synaptica.Storage
