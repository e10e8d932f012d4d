import Synaptica.Storage.Consistency

/-!
# Dropping a graph

`delete_graph` clears the block of the graph's identifier in one column family after the other, one
batch each, and skips a column family that holds nothing of the graph. Its journal is therefore a
function of the state it starts from (`deleteGraph_writes`), and after its first `n` writes the first
`n` of the non-empty blocks are gone and everything else is as before (`deleteGraph_crash`).
-/

namespace Synaptica.Storage

open OrderedMap (scan mem_scan)

/-- The column family holds an entry of the block of `p`. -/
def hasBlock (db : Db) (p : Bytes) (c : ColumnFamily) : Bool := !(scan (db c) p).isEmpty

/-- The batch that deletes the block of `p`. -/
def blockBatch (db : Db) (p : Bytes) (c : ColumnFamily) : WriteBatch :=
  (scan (db c) p).map fun e => .delete c e.1

theorem hasBlock_iff {db : Db} {p : Bytes} {c : ColumnFamily} :
    hasBlock db p c ↔ ∃ k ∈ stored db c, p <+: k := by
  rw [hasBlock, Bool.not_eq_true', List.isEmpty_eq_false_iff]
  constructor
  · intro hne
    obtain ⟨e, he⟩ := List.exists_mem_of_ne_nil _ hne
    obtain ⟨hv, hp⟩ := (mem_scan _).mp he
    refine ⟨e.1, ?_, hp⟩
    rw [mem_stored, hv]
    exact Option.some_ne_none _
  · rintro ⟨k, hk, hp⟩
    obtain ⟨v, hv⟩ := Option.ne_none_iff_exists'.mp hk
    exact List.ne_nil_of_mem ((mem_scan (e := (k, v)) _).mpr ⟨hv, hp⟩)

/-! ## Cleared blocks -/

/-- `db'` is `db` with the block of `p` removed from the column families `cs`. -/
def Cleared (db : Db) (p : Bytes) (cs : List ColumnFamily) (db' : Db) : Prop :=
  ∀ c k, (db' c)[k]? = if c ∈ cs ∧ p <+: k then none else (db c)[k]?

theorem Cleared.refl (db : Db) (p : Bytes) : Cleared db p [] db := by
  intro c k
  simp

theorem Cleared.write {db db' : Db} {p : Bytes} {cs : List ColumnFamily} (h : Cleared db p cs db')
    (d : ColumnFamily) : Cleared db p (cs ++ [d]) (db'.write (blockBatch db p d)) := by
  intro c k
  rw [blockBatch, Db.getElem?_write_deletes, h c k]
  have hmem : k ∈ (scan (db d) p).map Prod.fst ↔ (db d)[k]? ≠ none ∧ p <+: k := by
    rw [List.mem_map]
    constructor
    · rintro ⟨e, he, rfl⟩
      obtain ⟨hv, hp⟩ := (mem_scan _).mp he
      exact ⟨by rw [hv]; exact Option.some_ne_none _, hp⟩
    · rintro ⟨hk, hp⟩
      obtain ⟨v, hv⟩ := Option.ne_none_iff_exists'.mp hk
      exact ⟨(k, v), (mem_scan _).mpr ⟨hv, hp⟩, rfl⟩
  by_cases hdc : d = c
  · subst hdc
    by_cases hp : p <+: k
    · by_cases hk : (db d)[k]? = none
      · simp [hk, hp]
      · simp [hmem, hp, hk]
    · simp [hmem, hp]
  · simp [hdc, Ne.symm hdc]

theorem Cleared.writeAll {db db' : Db} {p : Bytes} {cs : List ColumnFamily} (h : Cleared db p cs db')
    (ds : List ColumnFamily) :
    Cleared db p (cs ++ ds) (Writable.writeAll db' (ds.map (blockBatch db p))) := by
  induction ds generalizing cs db' with
  | nil => simpa using h
  | cons d ds ih =>
    rw [List.map_cons, Writable.writeAll_cons]
    have := ih (h.write d)
    rwa [List.append_assoc, List.singleton_append] at this

/-! ## The journal -/

theorem clearBlock_eq (c : ColumnFamily) (p : Bytes) (db : Db) :
    StorageEngine.clearBlock c p db =
      ⟨.ok (), if hasBlock db p c then [blockBatch db p c] else []⟩ := by
  rw [StorageEngine.clearBlock, Journaled.bind_ok rfl]
  show (⟨(ite _ _ _ : StorageM Unit) db |>.result, [] ++ ((ite _ _ _ : StorageM Unit) db).writes⟩ :
    Outcome WriteBatch StorageError Unit) = _
  by_cases h : (scan (db c) p) = []
  · simp [h, hasBlock, Journaled.pure_apply]
  · have hpos : ((scan (db c) p).map fun e => WriteOp.delete c e.1).length > 0 := by
      simpa [List.length_pos_iff] using h
    rw [if_pos hpos]
    simp [h, hasBlock, blockBatch, Journaled.write_apply]

/-- Clearing column families one after the other: none of them sees the others' writes. -/
theorem clearBlocks_eq (p : Bytes) (cs : List ColumnFamily) (hcs : cs.Nodup) (db : Db) :
    (cs.forM fun c => StorageEngine.clearBlock c p) db =
      ⟨.ok (), (cs.filter (hasBlock db p)).map (blockBatch db p)⟩ := by
  induction cs generalizing db with
  | nil => rfl
  | cons c cs ih =>
    obtain ⟨hc, hcs⟩ := List.nodup_cons.mp hcs
    show (StorageEngine.clearBlock c p >>= fun _ => cs.forM fun c => StorageEngine.clearBlock c p) db = _
    rw [Journaled.bind_ok (a := ()) (by rw [clearBlock_eq]), ih hcs]
    have hsame : ∀ d ∈ cs, Journaled.exec (StorageEngine.clearBlock c p) db d = db d := by
      intro d hd
      have hne : c ≠ d := fun h => hc (h ▸ hd)
      rw [Journaled.exec, clearBlock_eq]
      dsimp only
      split
      · apply Db.write_of_forall_cf_ne
        intro op hop
        obtain ⟨e, -, rfl⟩ := List.mem_map.mp hop
        exact hne
      · rfl
    have hblock : ∀ d ∈ cs, hasBlock (Journaled.exec (StorageEngine.clearBlock c p) db) p d =
        hasBlock db p d := by
      intro d hd
      rw [hasBlock, hasBlock, hsame d hd]
    have hbatch : ∀ d ∈ cs.filter (hasBlock db p),
        blockBatch (Journaled.exec (StorageEngine.clearBlock c p) db) p d = blockBatch db p d := by
      intro d hd
      rw [blockBatch, blockBatch, hsame d (List.mem_filter.mp hd).1]
    rw [List.filter_congr hblock, List.map_congr_left hbatch, clearBlock_eq]
    cases hb : hasBlock db p c <;> simp [hb]

/-- The column families in which the graph has entries, in the order they are cleared. -/
def droppedCfs (db : Db) (g : GraphId) : List ColumnFamily :=
  StorageEngine.dataCfs.filter (hasBlock db g.asBytes)

theorem deleteGraph_writes (g : GraphId) (db : Db) :
    (StorageEngine.deleteGraph g db).writes =
      (droppedCfs db g).map (blockBatch db g.asBytes) ++
        [[.delete .graphMeta (encodeGraphMetaKey g)]] := by
  rw [StorageEngine.deleteGraph,
    Journaled.bind_ok (a := ()) (by rw [clearBlocks_eq _ _ (by decide)]),
    clearBlocks_eq _ _ (by decide)]
  rfl

/-- **After `n` writes of `delete_graph`** the first `n` non-empty blocks are gone. -/
theorem deleteGraph_crash (g : GraphId) (db : Db) (n : Nat) {c : ColumnFamily} (hc : c ≠ .graphMeta)
    (k : Bytes) :
    (Journaled.crash (StorageEngine.deleteGraph g) n db c)[k]? =
      if c ∈ (droppedCfs db g).take n ∧ g.asBytes <+: k then none else (db c)[k]? := by
  have hcleared := (Cleared.refl db g.asBytes).writeAll ((droppedCfs db g).take n)
  rw [Journaled.crash, deleteGraph_writes, List.take_append, List.length_map, ← List.map_take,
    Writable.writeAll_append]
  rw [List.nil_append] at hcleared
  rw [← hcleared c k]
  -- the write to the metadata, if it went through, is in another column family
  cases n - (droppedCfs db g).length with
  | zero => rfl
  | succ m =>
    rw [List.take_succ_cons, List.take_nil, Writable.writeAll_cons, Writable.writeAll_nil]
    apply Db.getElem?_write_of_forall_ne
    simp [WriteOp.cf, Ne.symm hc]

/-- After the whole of it nothing of the graph is left in the data column families. -/
theorem deleteGraph_exec (g : GraphId) (db : Db) {c : ColumnFamily} (hc : c ∈ StorageEngine.dataCfs)
    (k : Bytes) :
    (Journaled.exec (StorageEngine.deleteGraph g) db c)[k]? =
      if g.asBytes <+: k then none else (db c)[k]? := by
  have hmeta : c ≠ .graphMeta := by
    rintro rfl
    revert hc
    decide
  have hcrash := deleteGraph_crash g db (StorageEngine.deleteGraph g db).writes.length hmeta k
  rw [Journaled.crash, List.take_length] at hcrash
  rw [Journaled.exec, hcrash, List.take_of_length_le (by simp [deleteGraph_writes])]
  by_cases hp : g.asBytes <+: k
  · by_cases hd : c ∈ droppedCfs db g
    · simp [hp, hd]
    · -- a skipped column family had nothing of the graph
      have hnone : (db c)[k]? = none := by
        by_contra hk
        exact hd (List.mem_filter.mpr ⟨hc, hasBlock_iff.mpr ⟨k, hk, hp⟩⟩)
      simp [hnone]
  · simp [hp]

/-! ## What is left of a consistent store -/

/-- Clearing the block of `p` in some column families leaves the rest consistent, provided each index
entry goes or stays with the entity it belongs to. -/
theorem Layout.Consistent.clear {α : Type} {L : Layout α} {good : α → Prop} {ixs : List L.Index}
    {db db' : Db} (h : L.Consistent good ixs db) (p : Bytes) (cs : List ColumnFamily)
    (hdata : ∀ k, (db' L.data)[k]? = if L.data ∈ cs ∧ p <+: k then none else (db L.data)[k]?)
    (hindex : ∀ ix ∈ ixs, ∀ k,
      (db' ix.cf)[k]? = if ix.cf ∈ cs ∧ p <+: k then none else (db ix.cf)[k]?)
    (htogether : ∀ ix ∈ ixs, ∀ k a, L.records db k = some a → ∀ j ∈ ix.keys a,
      (ix.cf ∈ cs ∧ p <+: j ↔ L.data ∈ cs ∧ p <+: k)) :
    L.Consistent good ixs db' where
  decodes := by
    intro k v hv
    rw [hdata] at hv
    split at hv
    · cases hv
    · exact h.decodes k v hv
  mirrors := by
    intro ix hix
    apply (h.mirrors ix hix).restrict (q := fun j => ix.cf ∈ cs ∧ p <+: j) (htogether ix hix)
    · intro k a
      rw [Layout.records, Layout.records, hdata]
      split
      · simp_all
      · simp_all
    · intro j
      rw [mem_stored, mem_stored, hindex ix hix]
      split <;> simp_all

variable {bin : Bincode} {P : Node → Prop} {Q : Edge → Prop} {db : Db} {g : GraphId}

theorem nodeIndex_prefix_iff {n : Node} {j : Bytes} (hj : j ∈ (nodeLabelIndex bin).keys n) :
    g.asBytes <+: j ↔ g = n.graphId := by
  obtain ⟨l, -, rfl⟩ := List.mem_map.mp hj
  rw [encodeNodeLabelKey, List.append_assoc, graph_prefix_iff]

theorem edgeIndex_prefix_iff {ix : (edgeLayout bin).Index} (hix : ix ∈ edgeIndexes bin) {e : Edge}
    {j : Bytes} (hj : j ∈ ix.keys e) : g.asBytes <+: j ↔ g = e.graphId := by
  simp only [edgeIndexes, List.mem_cons, List.not_mem_nil, or_false] at hix
  rcases hix with rfl | rfl | rfl <;> obtain rfl := List.mem_singleton.mp hj
  · rw [encodeAdjOutKey, adjKey, List.append_assoc, List.append_assoc, graph_prefix_iff]
  · rw [encodeAdjInKey, adjKey, List.append_assoc, List.append_assoc, graph_prefix_iff]
  · rw [encodeEdgeLabelKey, List.append_assoc, graph_prefix_iff]

theorem WellIndexed.node_prefix_iff (h : WellIndexed bin P Q db) {k : Bytes} {n : Node}
    (hn : (nodeLayout bin).records db k = some n) : g.asBytes <+: k ↔ g = n.graphId := by
  rw [← h.nodes.decodes.wellKeyed k n hn]
  exact graph_prefix_iff

theorem WellIndexed.edge_prefix_iff (h : WellIndexed bin P Q db) {k : Bytes} {e : Edge}
    (he : (edgeLayout bin).records db k = some e) : g.asBytes <+: k ↔ g = e.graphId := by
  rw [← h.edges.decodes.wellKeyed k e he]
  exact graph_prefix_iff

/-- **A completed `delete_graph` keeps the store consistent.** -/
theorem deleteGraph_wellIndexed (h : WellIndexed bin P Q db) :
    WellIndexed bin P Q (Journaled.exec (StorageEngine.deleteGraph g) db) := by
  have hexec : ∀ c ∈ StorageEngine.dataCfs, ∀ k,
      (Journaled.exec (StorageEngine.deleteGraph g) db c)[k]? =
        if c ∈ StorageEngine.dataCfs ∧ g.asBytes <+: k then none else (db c)[k]? := by
    intro c hc k
    simp only [deleteGraph_exec g db hc, hc, true_and]
  constructor
  · apply h.nodes.clear _ _ (hexec .nodes (by decide))
    · simp only [nodeIndexes, List.mem_singleton, forall_eq]
      exact hexec .nodeLabels (by decide)
    · simp only [nodeIndexes, List.mem_singleton, forall_eq]
      intro k n hn j hj
      rw [nodeIndex_prefix_iff hj, h.node_prefix_iff hn]
      simp [nodeLabelIndex, nodeLayout, StorageEngine.dataCfs]
  · apply h.edges.clear _ _ (hexec .edges (by decide))
    · simp only [edgeIndexes, List.mem_cons, List.not_mem_nil, or_false]
      rintro ix (rfl | rfl | rfl)
      · exact hexec .adjOut (by decide)
      · exact hexec .adjIn (by decide)
      · exact hexec .edgeLabels (by decide)
    · intro ix hix k e he j hj
      rw [edgeIndex_prefix_iff hix hj, h.edge_prefix_iff he]
      simp only [edgeIndexes, List.mem_cons, List.not_mem_nil, or_false] at hix
      rcases hix with rfl | rfl | rfl <;>
        simp [adjOutIndex, adjInIndex, edgeLabelIndex, edgeLayout, StorageEngine.dataCfs]

end Synaptica.Storage
