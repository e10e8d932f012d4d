import Synaptica.Lib.SecondaryIndex
import Synaptica.Storage.Engine

/-!
# The indexes follow the data

The engine stores every node and edge once and finds it again through four indexes. `Consistent` is
the invariant that ties them together: whatever is stored decodes to an entity with that key, and
each index holds exactly the keys of the stored entities. Every call of the engine keeps it, and all
but `delete_graph` keep it after each of their writes:

* `putNode_keeps`, `deleteNode_keeps`, `putEdge_keeps`, `deleteEdge_keeps` — at every crash point;
* `deleteGraph_consistent` — once the call is complete.

The invariant splits into a part about nodes and a part about edges that share no column family, so
each call has to be looked at for one of them only.
-/

namespace Synaptica.Storage

open SecondaryIndex

/-! ## Stored entities -/

/-- Where and how a kind of entity is stored. -/
structure Layout (α : Type) where
  data : ColumnFamily
  codec : Codec α
  key : α → Bytes

/-- The keys of a column family. -/
def stored (db : Db) (c : ColumnFamily) : Set Bytes := {k | (db c)[k]? ≠ none}

namespace Layout

variable {α : Type} (L : Layout α) (good : α → Prop)

/-- The entity stored under a key. -/
def records (db : Db) (k : Bytes) : Option α :=
  (db L.data)[k]?.bind fun v => (L.codec.deserialize v).toOption

/-- Everything stored decodes to a good entity with that key. -/
def Decodes (db : Db) : Prop :=
  ∀ k v, (db L.data)[k]? = some v → ∃ a, L.codec.deserialize v = .ok a ∧ L.key a = k ∧ good a

variable {L good} {db db' : Db} {k : Bytes} {a : α}

theorem records_eq_some : L.records db k = some a ↔
    ∃ v, (db L.data)[k]? = some v ∧ L.codec.deserialize v = .ok a := by
  have hok : ∀ x : Except String α, x.toOption = some a ↔ x = .ok a := by
    intro x
    cases x <;> simp [Except.toOption]
  rw [records, Option.bind_eq_some_iff]
  simp only [hok]

theorem Decodes.wellKeyed (h : L.Decodes good db) : WellKeyed L.key (L.records db) := by
  intro k a ha
  obtain ⟨v, hv, hdec⟩ := records_eq_some.mp ha
  obtain ⟨a', hdec', hkey, -⟩ := h k v hv
  rw [hdec] at hdec'
  cases hdec'
  exact hkey

theorem Decodes.isGood (h : L.Decodes good db) (ha : L.records db k = some a) : good a := by
  obtain ⟨v, hv, hdec⟩ := records_eq_some.mp ha
  obtain ⟨a', hdec', -, hgood⟩ := h k v hv
  rw [hdec] at hdec'
  cases hdec'
  exact hgood

/-- Storing an entity replaces the record under its key. -/
theorem Decodes.put {v : Bytes} (h : L.Decodes good db) (hv : L.codec.deserialize v = .ok a) (ha : good a)
    (hdata : ∀ k', (db' L.data)[k']? = if k' = L.key a then some v else (db L.data)[k']?) :
    L.Decodes good db' ∧ L.records db' = Function.update (L.records db) (L.key a) (some a) := by
  constructor
  · intro k' v' hv'
    rw [hdata] at hv'
    split at hv'
    · cases hv'
      exact ⟨a, hv, by simp_all, ha⟩
    · exact h k' v' hv'
  · funext k'
    rw [records, hdata, Function.update_apply]
    split
    · simp [hv, Except.toOption]
    · rfl

/-- Deleting a key removes the record under it. -/
theorem Decodes.erase (h : L.Decodes good db)
    (hdata : ∀ k', (db' L.data)[k']? = if k' = k then none else (db L.data)[k']?) :
    L.Decodes good db' ∧ L.records db' = Function.update (L.records db) k none := by
  constructor
  · intro k' v' hv'
    rw [hdata] at hv'
    split at hv'
    · cases hv'
    · exact h k' v' hv'
  · funext k'
    rw [records, hdata, Function.update_apply]
    split
    · rfl
    · rfl

/-! ## Indexed entities -/

/-- An index over the entities of a layout: the keys under which it finds an entity. No two entities
share one. -/
structure Index (L : Layout α) where
  cf : ColumnFamily
  keys : α → List Bytes
  separated : ∀ a a' k, k ∈ keys a → k ∈ keys a' → L.key a = L.key a'

/-- The keys of an entity as a set. -/
def Index.keySet (ix : Index L) (a : α) : Set Bytes := {k | k ∈ ix.keys a}

theorem Index.separated_keySet (ix : Index L) : Separated L.key ix.keySet := ix.separated

variable (L good) in
/-- What is stored decodes, and every index holds exactly the keys of the stored entities. -/
structure Consistent (indexes : List (Index L)) (db : Db) : Prop where
  decodes : L.Decodes good db
  mirrors : ∀ ix ∈ indexes, Mirrors ix.keySet (L.records db) (stored db ix.cf)

variable {indexes : List (Index L)}

theorem consistent_empty : L.Consistent good indexes Db.empty where
  decodes := by simp [Decodes, Db.empty]
  mirrors := by simp [Mirrors, records, stored, Db.empty]

theorem Consistent.mono {ixs : List (Index L)} (h : L.Consistent good indexes db)
    (hsub : ∀ ix ∈ ixs, ix ∈ indexes) : L.Consistent good ixs db :=
  ⟨h.decodes, fun ix hix => h.mirrors ix (hsub ix hix)⟩

/-- Only the column families of the layout and its indexes matter. -/
theorem Consistent.congr (h : L.Consistent good indexes db) (hdata : db' L.data = db L.data)
    (hindex : ∀ ix ∈ indexes, db' ix.cf = db ix.cf) : L.Consistent good indexes db' where
  decodes := by
    intro k v hv
    rw [hdata] at hv
    exact h.decodes k v hv
  mirrors := by
    intro ix hix
    have hrec : L.records db' = L.records db := by
      funext k
      rw [records, hdata]
      rfl
    rw [hrec, stored, hindex ix hix]
    exact h.mirrors ix hix

/-- **Storing an entity**: each index drops some keys `D` of the stored version, at least those the
new one lacks, and takes the keys of the new one. -/
theorem Consistent.put {v : Bytes} (h : L.Consistent good indexes db)
    (hv : L.codec.deserialize v = .ok a) (ha : good a)
    (hdata : ∀ k', (db' L.data)[k']? = if k' = L.key a then some v else (db L.data)[k']?)
    (hindex : ∀ ix ∈ indexes, ∃ D : Set Bytes,
      D ⊆ keysOfOption ix.keySet (L.records db (L.key a)) ∧
      keysOfOption ix.keySet (L.records db (L.key a)) ⊆ D ∪ ix.keySet a ∧
      ∀ k, k ∈ stored db' ix.cf ↔ k ∈ ix.keySet a ∨ (k ∈ stored db ix.cf ∧ k ∉ D)) :
    L.Consistent good indexes db' := by
  obtain ⟨hdec, hrec⟩ := h.decodes.put hv ha hdata
  refine ⟨hdec, fun ix hix => ?_⟩
  obtain ⟨D, hD, hstale, hmem⟩ := hindex ix hix
  rw [hrec]
  apply Mirrors.update ix.separated_keySet h.decodes.wellKeyed (h.mirrors ix hix) _ hD
  · rwa [keysOfOption_some]
  · intro k
    rw [keysOfOption_some, hmem]
  · intro a' ha'
    cases ha'
    rfl

/-- **Deleting an entity**: each index drops its keys. -/
theorem Consistent.erase (h : L.Consistent good indexes db) (ha : L.records db k = some a)
    (hdata : ∀ k', (db' L.data)[k']? = if k' = k then none else (db L.data)[k']?)
    (hindex : ∀ ix ∈ indexes, ∀ k,
      k ∈ stored db' ix.cf ↔ k ∈ stored db ix.cf ∧ k ∉ ix.keySet a) :
    L.Consistent good indexes db' := by
  obtain ⟨hdec, hrec⟩ := h.decodes.erase hdata
  refine ⟨hdec, fun ix hix => ?_⟩
  rw [hrec]
  apply Mirrors.update (D := ix.keySet a) ix.separated_keySet h.decodes.wellKeyed (h.mirrors ix hix)
  · simp
  · rw [ha, keysOfOption_some]
  · rw [ha, keysOfOption_some]
    exact Set.subset_union_left
  · intro k
    rw [hindex ix hix]
    simp

end Layout

/-! ## Nodes and edges -/

section Invariant

variable (bin : Bincode)

def nodeLayout : Layout Node := ⟨.nodes, bin.node, fun n => encodeNodeKey n.graphId n.id⟩

def edgeLayout : Layout Edge := ⟨.edges, bin.edge, fun e => encodeEdgeKey e.graphId e.id⟩

/-- A node is found under each of its labels. -/
def nodeLabelIndex : (nodeLayout bin).Index where
  cf := .nodeLabels
  keys n := n.labels.toList.map fun l => encodeNodeLabelKey n.graphId l n.id
  separated := by
    intro n n' k hk hk'
    obtain ⟨l, -, rfl⟩ := List.mem_map.mp hk
    obtain ⟨l', -, h⟩ := List.mem_map.mp hk'
    exact encodeNodeKey_inj.mpr (encodeNodeLabelKey_owner h.symm)

/-- An edge is found under its source and label. -/
def adjOutIndex : (edgeLayout bin).Index where
  cf := .adjOut
  keys e := [encodeAdjOutKey e.graphId e.source e.label e.id]
  separated := by
    intro e e' k hk hk'
    rw [List.mem_singleton] at hk hk'
    exact encodeEdgeKey_inj.mpr (adjKey_owner (hk.symm.trans hk'))

/-- An edge is found under its target and label. -/
def adjInIndex : (edgeLayout bin).Index where
  cf := .adjIn
  keys e := [encodeAdjInKey e.graphId e.target e.label e.id]
  separated := by
    intro e e' k hk hk'
    rw [List.mem_singleton] at hk hk'
    exact encodeEdgeKey_inj.mpr (adjKey_owner (hk.symm.trans hk'))

/-- An edge is found under its label. -/
def edgeLabelIndex : (edgeLayout bin).Index where
  cf := .edgeLabels
  keys e := [encodeEdgeLabelKey e.graphId e.label e.id]
  separated := by
    intro e e' k hk hk'
    rw [List.mem_singleton] at hk hk'
    exact encodeEdgeKey_inj.mpr (encodeEdgeLabelKey_owner (hk.symm.trans hk'))

def nodeIndexes : List (nodeLayout bin).Index := [nodeLabelIndex bin]

def edgeIndexes : List (edgeLayout bin).Index := [adjOutIndex bin, adjInIndex bin, edgeLabelIndex bin]

/-- Every label of the node fits its length prefix. -/
def LabelsFit (n : Node) : Prop := ∀ l ∈ n.labels, l.Fits

/-- Data and indexes agree. -/
structure Consistent (db : Db) : Prop where
  nodes : (nodeLayout bin).Consistent LabelsFit (nodeIndexes bin) db
  edges : (edgeLayout bin).Consistent (fun e => e.label.Fits) (edgeIndexes bin) db

/-- Data and indexes agree, for whatever makes a node or an edge good. -/
structure WellIndexed (P : Node → Prop) (Q : Edge → Prop) (db : Db) : Prop where
  nodes : (nodeLayout bin).Consistent P (nodeIndexes bin) db
  edges : (edgeLayout bin).Consistent Q (edgeIndexes bin) db

end Invariant

variable {bin : Bincode} {P : Node → Prop} {Q : Edge → Prop} {db db' : Db}

theorem consistent_iff : Consistent bin db ↔ WellIndexed bin LabelsFit (fun e => e.label.Fits) db :=
  ⟨fun h => ⟨h.nodes, h.edges⟩, fun h => ⟨h.nodes, h.edges⟩⟩

theorem wellIndexed_empty : WellIndexed bin P Q Db.empty :=
  ⟨Layout.consistent_empty, Layout.consistent_empty⟩

theorem mem_stored {c : ColumnFamily} {k : Bytes} : k ∈ stored db c ↔ (db c)[k]? ≠ none := Iff.rfl

/-- A batch that stays outside the column families of edges. -/
theorem WellIndexed.of_nodes (h : WellIndexed bin P Q db)
    (hn : (nodeLayout bin).Consistent P (nodeIndexes bin) db')
    (hother : ∀ c, c ≠ .nodes → c ≠ .nodeLabels → db' c = db c) : WellIndexed bin P Q db' where
  nodes := hn
  edges := by
    apply h.edges.congr (hother .edges (by decide) (by decide))
    simp only [edgeIndexes, List.mem_cons, List.not_mem_nil, or_false]
    rintro ix (rfl | rfl | rfl)
    · exact hother .adjOut (by decide) (by decide)
    · exact hother .adjIn (by decide) (by decide)
    · exact hother .edgeLabels (by decide) (by decide)

/-- A batch that stays outside the column families of nodes. -/
theorem WellIndexed.of_edges (h : WellIndexed bin P Q db)
    (he : (edgeLayout bin).Consistent Q (edgeIndexes bin) db')
    (hother : db' .nodes = db .nodes ∧ db' .nodeLabels = db .nodeLabels) :
    WellIndexed bin P Q db' where
  nodes := by
    apply h.nodes.congr hother.1
    simp only [nodeIndexes, List.mem_cons, List.not_mem_nil, or_false]
    rintro ix rfl
    exact hother.2
  edges := he

/-! ## put_node -/

section PutNode

variable (db) (node : Node) (stale : List Label) (value : Bytes)

theorem putNodeBatch_nodes (k : Bytes) :
    (db.write (StorageEngine.putNodeBatch node stale value) .nodes)[k]? =
      if k = encodeNodeKey node.graphId node.id then some value else (db .nodes)[k]? := by
  rw [StorageEngine.putNodeBatch, Db.write_append, Db.write_cons, Db.getElem?_write_puts,
    Db.getElem?_apply, Db.getElem?_write_deletes]
  simp [WriteOp.cf, WriteOp.key, WriteOp.result, eq_comm]

theorem putNodeBatch_labels (k : Bytes) :
    k ∈ stored (db.write (StorageEngine.putNodeBatch node stale value)) .nodeLabels ↔
      k ∈ (nodeLabelIndex bin).keySet node ∨ (k ∈ stored db .nodeLabels ∧
        k ∉ {k | k ∈ stale.map fun l => encodeNodeLabelKey node.graphId l node.id}) := by
  show k ∈ stored _ _ ↔ k ∈ node.labels.toList.map _ ∨ (_ ∧ k ∉ stale.map _)
  rw [mem_stored, mem_stored, StorageEngine.putNodeBatch, Db.write_append, Db.write_cons,
    Db.getElem?_write_puts, Db.getElem?_apply, Db.getElem?_write_deletes]
  simp only [WriteOp.cf, reduceCtorEq, false_and, if_false, true_and]
  split
  · simp_all
  · split <;> simp_all

theorem putNodeBatch_other {c : ColumnFamily} (hn : c ≠ .nodes) (hl : c ≠ .nodeLabels) :
    db.write (StorageEngine.putNodeBatch node stale value) c = db c := by
  apply Db.write_of_forall_cf_ne
  simp only [StorageEngine.putNodeBatch, List.mem_append, List.mem_cons, List.mem_map]
  rintro op (⟨l, -, rfl⟩ | rfl | ⟨l, -, rfl⟩)
  · exact hl.symm
  · exact hn.symm
  · exact hl.symm

end PutNode

/-- A stored node under the key of `g` and `i` is that node. -/
theorem WellIndexed.node_id (h : WellIndexed bin P Q db) {g : GraphId} {i : NodeId} {n : Node}
    (hn : (nodeLayout bin).records db (encodeNodeKey g i) = some n) : n.graphId = g ∧ n.id = i :=
  encodeNodeKey_inj.mp (h.nodes.decodes.wellKeyed _ n hn)

theorem mem_staleLabels {node : Node} {stale : List Label}
    (h : StorageEngine.staleLabels bin db node = .ok stale) {l : Label} :
    l ∈ stale ↔ ∃ old, (nodeLayout bin).records db (encodeNodeKey node.graphId node.id) = some old ∧
      l ∈ old.labels ∧ l ∉ node.labels := by
  simp only [Layout.records_eq_some]
  rw [StorageEngine.staleLabels] at h
  cases hold : (db .nodes)[encodeNodeKey node.graphId node.id]? with
  | none =>
    simp only [hold, Except.ok.injEq] at h
    simp [← h, nodeLayout, hold]
  | some v =>
    simp only [hold] at h
    cases hv : bin.node.deserialize v with
    | error e => simp [deserializeValue, hv, Except.mapError, bind, Except.bind] at h
    | ok old =>
      simp only [deserializeValue_eq_ok.mpr hv, bind, Except.bind, pure, Except.pure,
        Except.ok.injEq] at h
      have hcontains : node.labels.contains l = false ↔ l ∉ node.labels := by
        rw [← Std.ExtTreeSet.contains_iff_mem, Bool.not_eq_true]
      simp [← h, nodeLayout, hold, hv, hcontains]

theorem WellIndexed.putNode {node : Node} {stale : List Label} {value : Bytes}
    (h : WellIndexed bin P Q db) (hfit : P node)
    (hstale : StorageEngine.staleLabels bin db node = .ok stale)
    (hvalue : bin.node.deserialize value = .ok node) :
    WellIndexed bin P Q (db.write (StorageEngine.putNodeBatch node stale value)) := by
  refine h.of_nodes ?_ fun c => putNodeBatch_other db node stale value
  apply h.nodes.put hvalue hfit (putNodeBatch_nodes db node stale value)
  simp only [nodeIndexes, List.mem_singleton, forall_eq]
  refine ⟨_, ?_, ?_, putNodeBatch_labels db node stale value⟩
  · -- what is dropped are entries of the stored version
    intro k hk
    obtain ⟨l, hl, rfl⟩ := List.mem_map.mp hk
    obtain ⟨old, hold, hl, -⟩ := (mem_staleLabels hstale).mp hl
    obtain ⟨hg, hi⟩ := h.node_id hold
    refine ⟨old, hold, List.mem_map.mpr ⟨l, Std.ExtTreeSet.mem_toList.mpr hl, ?_⟩⟩
    rw [hg, hi]
  · -- and what is kept of it belongs to the new version as well
    rintro k ⟨old, hold, hk⟩
    obtain ⟨l, hl, rfl⟩ := List.mem_map.mp hk
    rw [Std.ExtTreeSet.mem_toList] at hl
    obtain ⟨hg, hi⟩ := h.node_id hold
    rw [hg, hi]
    by_cases hnew : l ∈ node.labels
    · exact .inr (List.mem_map.mpr ⟨l, Std.ExtTreeSet.mem_toList.mpr hnew, rfl⟩)
    · exact .inl (List.mem_map.mpr ⟨l, (mem_staleLabels hstale).mpr ⟨old, hold, hl, hnew⟩, rfl⟩)

theorem putNode_keeps {node : Node} (hbin : bin.node.RoundTrips) (hfit : P node)
    (h : WellIndexed bin P Q db) :
    Journaled.Keeps (WellIndexed bin P Q) (StorageEngine.putNode bin node) db := by
  apply Journaled.keeps_bind (Journaled.keeps_read h)
  intro stale hstale
  apply Journaled.keeps_bind (Journaled.keeps_read h)
  intro value hvalue
  apply Journaled.keeps_write h
  exact h.putNode hfit hstale (hbin node value (serializeValue_eq_ok.mp hvalue))

/-! ## put_edge -/

/-- A stored edge under the key of `g` and `i` is that edge. -/
theorem WellIndexed.edge_id (h : WellIndexed bin P Q db) {g : GraphId} {i : EdgeId} {e : Edge}
    (he : (edgeLayout bin).records db (encodeEdgeKey g i) = some e) : e.graphId = g ∧ e.id = i :=
  encodeEdgeKey_inj.mp (h.edges.decodes.wellKeyed _ e he)

section PutEdge

variable {edge : Edge} {stale : Option Edge} {value : Bytes}

theorem putEdgeBatch_edges (k : Bytes) :
    (db.write (StorageEngine.putEdgeBatch edge stale value) .edges)[k]? =
      if k = encodeEdgeKey edge.graphId edge.id then some value else (db .edges)[k]? := by
  cases stale <;>
    simp [StorageEngine.putEdgeBatch, StorageEngine.dropEdgeEntries, Db.getElem?_apply, WriteOp.cf,
      WriteOp.key, WriteOp.result, eq_comm]

theorem putEdgeBatch_index {ix : (edgeLayout bin).Index} (hix : ix ∈ edgeIndexes bin)
    (hold : ∀ old, stale = some old → old.graphId = edge.graphId ∧ old.id = edge.id) (k : Bytes) :
    k ∈ stored (db.write (StorageEngine.putEdgeBatch edge stale value)) ix.cf ↔
      k ∈ ix.keySet edge ∨ (k ∈ stored db ix.cf ∧ k ∉ keysOfOption ix.keySet stale) := by
  simp only [edgeIndexes, List.mem_cons, List.not_mem_nil, or_false] at hix
  cases stale with
  | none =>
    rcases hix with rfl | rfl | rfl <;>
      simp [StorageEngine.putEdgeBatch, mem_stored, Db.getElem?_apply, WriteOp.cf, WriteOp.key,
        WriteOp.result, Layout.Index.keySet, adjOutIndex, adjInIndex, edgeLabelIndex] <;>
      grind
  | some old =>
    obtain ⟨hg, hi⟩ := hold old rfl
    rcases hix with rfl | rfl | rfl <;>
      simp [StorageEngine.putEdgeBatch, StorageEngine.dropEdgeEntries, mem_stored,
        Db.getElem?_apply, WriteOp.cf, WriteOp.key, WriteOp.result, Layout.Index.keySet, adjOutIndex,
        adjInIndex, edgeLabelIndex, hg, hi] <;>
      grind

theorem putEdgeBatch_other {c : ColumnFamily} (hc : c = .nodes ∨ c = .nodeLabels) :
    db.write (StorageEngine.putEdgeBatch edge stale value) c = db c := by
  apply Db.write_of_forall_cf_ne
  cases stale <;> rcases hc with rfl | rfl <;>
    simp [StorageEngine.putEdgeBatch, StorageEngine.dropEdgeEntries, WriteOp.cf]

/-- `staleEdge` answers with the stored edge, unless its entries are those of the new one. -/
theorem staleEdge_cases (h : StorageEngine.staleEdge bin db edge = .ok stale) :
    (∃ old, stale = some old ∧
      (edgeLayout bin).records db (encodeEdgeKey edge.graphId edge.id) = some old) ∨
    (stale = none ∧ ∀ old,
      (edgeLayout bin).records db (encodeEdgeKey edge.graphId edge.id) = some old →
      old.source = edge.source ∧ old.target = edge.target ∧ old.label = edge.label) := by
  simp only [Layout.records_eq_some]
  rw [StorageEngine.staleEdge] at h
  cases hold : (db .edges)[encodeEdgeKey edge.graphId edge.id]? with
  | none =>
    simp only [hold, Except.ok.injEq] at h
    simp [← h, edgeLayout, hold]
  | some v =>
    simp only [hold] at h
    cases hv : bin.edge.deserialize v with
    | error e => simp [deserializeValue, hv, Except.mapError, bind, Except.bind] at h
    | ok old =>
      simp only [deserializeValue_eq_ok.mpr hv, bind, Except.bind, pure, Except.pure,
        Except.ok.injEq] at h
      split at h
      · exact .inl ⟨old, h.symm, v, hold, hv⟩
      · rename_i hsame
        refine .inr ⟨h.symm, ?_⟩
        rintro _ ⟨w, hw, hdec⟩
        have : v = w := Option.some_injective _ (hold.symm.trans hw)
        subst this
        rw [show (edgeLayout bin).codec.deserialize v = .ok old from hv] at hdec
        cases hdec
        simpa using hsame

theorem WellIndexed.putEdge (h : WellIndexed bin P Q db) (hfit : Q edge)
    (hstale : StorageEngine.staleEdge bin db edge = .ok stale)
    (hvalue : bin.edge.deserialize value = .ok edge) :
    WellIndexed bin P Q (db.write (StorageEngine.putEdgeBatch edge stale value)) := by
  refine h.of_edges ?_ ⟨putEdgeBatch_other (.inl rfl), putEdgeBatch_other (.inr rfl)⟩
  apply h.edges.put hvalue hfit putEdgeBatch_edges
  intro ix hix
  have hindex := staleEdge_cases hstale
  refine ⟨keysOfOption ix.keySet stale, ?_, ?_, ?_⟩
  · rcases hindex with ⟨old, rfl, hold⟩ | ⟨rfl, -⟩
    · show _ ⊆ keysOfOption _ ((edgeLayout bin).records db (encodeEdgeKey edge.graphId edge.id))
      rw [hold]
    · simp
  · rcases hindex with ⟨old, rfl, hold⟩ | ⟨rfl, hsame⟩
    · show keysOfOption _ ((edgeLayout bin).records db (encodeEdgeKey edge.graphId edge.id)) ⊆ _
      rw [hold]
      exact Set.subset_union_left
    · -- the stored edge has the endpoints and label of the new one, hence its entries
      rintro k ⟨old, hold, hk⟩
      obtain ⟨hg, hi⟩ := h.edge_id hold
      obtain ⟨hs, ht, hl⟩ := hsame old hold
      refine .inr ?_
      simp only [edgeIndexes, List.mem_cons, List.not_mem_nil, or_false] at hix
      rcases hix with rfl | rfl | rfl <;>
        simpa [Layout.Index.keySet, adjOutIndex, adjInIndex, edgeLabelIndex, hg, hi, hs, ht, hl]
          using hk
  · apply putEdgeBatch_index hix
    rintro old rfl
    rcases hindex with ⟨_, ⟨⟩, hold⟩ | ⟨⟨⟩, -⟩
    exact h.edge_id hold

theorem putEdge_keeps (hbin : bin.edge.RoundTrips) (hfit : Q edge) (h : WellIndexed bin P Q db) :
    Journaled.Keeps (WellIndexed bin P Q) (StorageEngine.putEdge bin edge) db := by
  apply Journaled.keeps_bind (Journaled.keeps_read h)
  intro stale hstale
  apply Journaled.keeps_bind (Journaled.keeps_read h)
  intro value hvalue
  apply Journaled.keeps_write h
  exact h.putEdge hfit hstale (hbin edge value (serializeValue_eq_ok.mp hvalue))

end PutEdge

/-! ## delete_edge and delete_node -/

theorem getNode_eq_ok {g : GraphId} {i : NodeId} {n : Node} :
    StorageEngine.getNode bin db g i = .ok n ↔
      (nodeLayout bin).records db (encodeNodeKey g i) = some n := by
  rw [Layout.records_eq_some, StorageEngine.getNode]
  show _ ↔ ∃ v, (db .nodes)[encodeNodeKey g i]? = some v ∧ bin.node.deserialize v = .ok n
  cases (db .nodes)[encodeNodeKey g i]? with
  | none => simp
  | some v => simp [deserializeValue_eq_ok]

theorem getEdge_eq_ok {g : GraphId} {i : EdgeId} {e : Edge} :
    StorageEngine.getEdge bin db g i = .ok e ↔
      (edgeLayout bin).records db (encodeEdgeKey g i) = some e := by
  rw [Layout.records_eq_some, StorageEngine.getEdge]
  show _ ↔ ∃ v, (db .edges)[encodeEdgeKey g i]? = some v ∧ bin.edge.deserialize v = .ok e
  cases (db .edges)[encodeEdgeKey g i]? with
  | none => simp
  | some v => simp [deserializeValue_eq_ok]

section DeleteEdge

variable {g : GraphId} {i : EdgeId} {edge : Edge}

theorem deleteEdge_other {c : ColumnFamily} (hc : c = .nodes ∨ c = .nodeLabels) :
    db.write (.delete .edges (encodeEdgeKey g i) :: StorageEngine.dropEdgeEntries g i edge) c =
      db c := by
  apply Db.write_of_forall_cf_ne
  rcases hc with rfl | rfl <;> simp [StorageEngine.dropEdgeEntries, WriteOp.cf]

theorem WellIndexed.deleteEdge (h : WellIndexed bin P Q db)
    (hedge : (edgeLayout bin).records db (encodeEdgeKey g i) = some edge) :
    WellIndexed bin P Q
      (db.write (.delete .edges (encodeEdgeKey g i) :: StorageEngine.dropEdgeEntries g i edge)) := by
  refine h.of_edges ?_ ⟨deleteEdge_other (.inl rfl), deleteEdge_other (.inr rfl)⟩
  apply h.edges.erase hedge
  · intro k
    simp [StorageEngine.dropEdgeEntries, edgeLayout, Db.getElem?_apply, WriteOp.cf, WriteOp.key,
      WriteOp.result, eq_comm]
  · intro ix hix k
    obtain ⟨rfl, rfl⟩ := h.edge_id hedge
    simp only [edgeIndexes, List.mem_cons, List.not_mem_nil, or_false] at hix
    rcases hix with rfl | rfl | rfl <;>
      simp [StorageEngine.dropEdgeEntries, mem_stored, Db.getElem?_apply, WriteOp.cf, WriteOp.key,
        WriteOp.result, Layout.Index.keySet, adjOutIndex, adjInIndex, edgeLabelIndex] <;>
      grind

/-- Data and indexes agree, and the nodes are those of `t`. -/
def WellIndexedWithNodes (bin : Bincode) (P : Node → Prop) (Q : Edge → Prop) (t : Table) (db : Db) :
    Prop :=
  WellIndexed bin P Q db ∧ db .nodes = t

theorem deleteEdge_keepsNodes {t : Table} (h : WellIndexedWithNodes bin P Q t db) :
    Journaled.Keeps (WellIndexedWithNodes bin P Q t) (StorageEngine.deleteEdge bin g i) db := by
  apply Journaled.keeps_bind (Journaled.keeps_read h)
  intro edge hedge
  refine Journaled.keeps_write h ⟨h.1.deleteEdge (getEdge_eq_ok.mp hedge), ?_⟩
  rw [← h.2]
  exact deleteEdge_other (.inl rfl)

theorem deleteEdge_keeps (h : WellIndexed bin P Q db) :
    Journaled.Keeps (WellIndexed bin P Q) (StorageEngine.deleteEdge bin g i) db :=
  (deleteEdge_keepsNodes ⟨h, rfl⟩).imp fun _ hdb => hdb.1

/-- The induction is on the list of connected edges; the set of edges already deleted plays no
role, since deleting an edge is safe in any consistent state. -/
theorem deleteConnected_keepsNodes {t : Table} (seen : List EdgeId) (edges : List Edge)
    (h : WellIndexedWithNodes bin P Q t db) :
    Journaled.Keeps (WellIndexedWithNodes bin P Q t) (StorageEngine.deleteConnected bin g seen edges)
      db := by
  induction edges generalizing seen db with
  | nil => exact Journaled.keeps_pure _ h
  | cons edge edges ih =>
    rw [StorageEngine.deleteConnected]
    split
    · exact ih seen h
    · have hdelete := deleteEdge_keepsNodes (g := g) (i := edge.id) h
      exact Journaled.keeps_bind hdelete fun _ _ => ih _ hdelete.exec

end DeleteEdge

section DeleteNode

variable {g : GraphId} {i : NodeId} {node : Node}

theorem deleteNodeBatch_other {c : ColumnFamily} (hn : c ≠ .nodes) (hl : c ≠ .nodeLabels) :
    db.write (StorageEngine.deleteNodeBatch g i node) c = db c := by
  apply Db.write_of_forall_cf_ne
  simp only [StorageEngine.deleteNodeBatch, List.mem_cons, List.mem_map]
  rintro op (rfl | ⟨l, -, rfl⟩)
  · exact hn.symm
  · exact hl.symm

theorem WellIndexed.deleteNode (h : WellIndexed bin P Q db)
    (hnode : (nodeLayout bin).records db (encodeNodeKey g i) = some node) :
    WellIndexed bin P Q (db.write (StorageEngine.deleteNodeBatch g i node)) := by
  refine h.of_nodes ?_ fun c => deleteNodeBatch_other
  obtain ⟨rfl, rfl⟩ := h.node_id hnode
  apply h.nodes.erase hnode
  · intro k
    show (db.write _ .nodes)[k]? = if k = _ then none else (db .nodes)[k]?
    rw [StorageEngine.deleteNodeBatch, Db.write_cons, Db.getElem?_write_deletes, Db.getElem?_apply]
    simp [WriteOp.cf, WriteOp.key, WriteOp.result, eq_comm]
  · simp only [nodeIndexes, List.mem_singleton, forall_eq]
    intro k
    show (db.write _ .nodeLabels)[k]? ≠ none ↔ (db .nodeLabels)[k]? ≠ none ∧ k ∉ node.labels.toList.map _
    rw [StorageEngine.deleteNodeBatch, Db.write_cons, Db.getElem?_write_deletes, Db.getElem?_apply]
    simp only [WriteOp.cf, reduceCtorEq, false_and, if_false, true_and]
    split <;> simp_all

theorem deleteNode_keeps (h : WellIndexed bin P Q db) :
    Journaled.Keeps (WellIndexed bin P Q) (StorageEngine.deleteNode bin g i) db := by
  apply Journaled.keeps_bind (Journaled.keeps_read h)
  intro node hnode
  apply Journaled.keeps_bind (Journaled.keeps_read h)
  intro outgoing _
  apply Journaled.keeps_bind (Journaled.keeps_read h)
  intro incoming _
  have hedges := deleteConnected_keepsNodes (g := g) [] (outgoing ++ incoming) ⟨h, rfl⟩
  apply Journaled.keeps_bind (hedges.imp fun _ hdb => hdb.1)
  rintro ⟨⟩ _
  obtain ⟨hcons, hnodes⟩ := hedges.exec
  apply Journaled.keeps_write hcons
  -- the node read at the start is still the stored one
  refine hcons.deleteNode ?_
  rw [Layout.records, nodeLayout, hnodes]
  exact getNode_eq_ok.mp hnode

end DeleteNode

end Synaptica.Storage
