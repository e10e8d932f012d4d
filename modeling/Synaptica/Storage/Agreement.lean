import Synaptica.Lib.Traverse
import Synaptica.Storage.Consistency

/-!
# Reads through the indexes agree with the data

A consistent store answers every indexed read with what a scan of the data would have given:
`scan_nodes_by_label` returns the nodes of `scan_nodes` that carry the label, the two adjacency reads
return the edges of `scan_edges` at the node, and none of them fails (`agreement`).

The argument is the same for all of them. A prefix scan of an index sees exactly the keys of the
entities asked for (`index_read`), because the encodings separate graphs, nodes and labels; each key
names its entity, which is stored; so fetching the entities one by one succeeds.
-/

namespace Synaptica.Storage

open OrderedMap (scan mem_scan pairwise_scan)
open SecondaryIndex

/-! ## What is to agree -/

/-- The edge passes an optional label filter. -/
def matchesLabel (labelFilter : Option Label) (e : Edge) : Bool :=
  match labelFilter with
  | some l => e.label == l
  | none => true

/-- Secondary structures agree with the primary data: no read fails, and each returns exactly the
entities of the full scan that it asks for, each once. -/
structure Agreement (bin : Bincode) (db : Db) : Prop where
  nodes : ∀ g, ∃ ns, StorageEngine.scanNodes bin db g = .ok ns ∧ (ns.map Node.id).Nodup ∧
    ∀ l : Label, l.Fits → ∃ r, StorageEngine.scanNodesByLabel bin db g l = .ok r ∧
      r.Perm (ns.filter fun n => n.labels.contains l)
  edges : ∀ g, ∃ es, StorageEngine.scanEdges bin db g = .ok es ∧ (es.map Edge.id).Nodup ∧
    ∀ (n : NodeId) (f : Option Label), (∀ l ∈ f, l.Fits) →
      (∃ r, StorageEngine.getOutgoingEdges bin db g n f = .ok r ∧
        r.Perm (es.filter fun e => e.source == n && matchesLabel f e)) ∧
      ∃ r, StorageEngine.getIncomingEdges bin db g n f = .ok r ∧
        r.Perm (es.filter fun e => e.target == n && matchesLabel f e)

/-! ## Scans of data and of indexes -/

section Scans

variable {α : Type} {L : Layout α} {good : α → Prop} {db : Db}

/-- A scan of the data decodes every record of the block. -/
theorem Layout.Decodes.scan (h : L.Decodes good db) (p : Bytes) :
    ∃ as, ((scan (db L.data) p).mapM fun e => deserializeValue L.codec e.2) = .ok as ∧
      (as.map L.key).Nodup ∧ ∀ a, a ∈ as ↔ L.records db (L.key a) = some a ∧ p <+: L.key a := by
  have hok : ∀ e ∈ OrderedMap.scan (db L.data) p, ∃ a, deserializeValue L.codec e.2 = .ok a ∧
      L.key a = e.1 := by
    intro e he
    obtain ⟨a, ha, hkey, -⟩ := h e.1 e.2 ((mem_scan _).mp he).1
    exact ⟨a, deserializeValue_eq_ok.mpr ha, hkey⟩
  refine ⟨_, List.mapM_eq_ok_filterMap fun e he => (hok e he).imp fun a ha => ha.1, ?_, ?_⟩
  · rw [List.map_filterMap_eq_map (h := Prod.fst)]
    · exact List.pairwise_map.mpr ((pairwise_scan _ p).imp fun hlt => hlt.ne)
    · intro e he
      obtain ⟨a, ha, hkey⟩ := hok e he
      exact ⟨a, by simp [ha, Except.toOption], hkey⟩
  · intro a
    rw [List.mem_filterMap, Layout.records_eq_some]
    constructor
    · rintro ⟨e, he, hea⟩
      obtain ⟨a', ha', hkey⟩ := hok e he
      obtain rfl : a' = a := by simpa [ha', Except.toOption] using hea
      obtain ⟨hv, hp⟩ := (mem_scan _).mp he
      rw [hkey]
      exact ⟨⟨e.2, hv, deserializeValue_eq_ok.mp ha'⟩, hp⟩
    · rintro ⟨⟨v, hv, hdec⟩, hp⟩
      refine ⟨(L.key a, v), (mem_scan _).mpr ⟨hv, hp⟩, ?_⟩
      simp [deserializeValue_eq_ok.mpr hdec, Except.toOption]

/-- **A read through an index.** Let the keys of `ix` under the prefix `p` be one key each of the
records in `rs`, and let `fetch` find a record from its key. Then the loop that fetches every key of
the block returns the records of `rs`. -/
theorem index_read {ix : L.Index} (rs : List α) (p : Bytes) (key : α → Bytes)
    (fetch : Bytes → StorageResult α) (hmirror : Mirrors ix.keySet (L.records db) (stored db ix.cf))
    (hnodup : (rs.map L.key).Nodup) (hrs : ∀ a ∈ rs, L.records db (L.key a) = some a)
    (hkey : ∀ a ∈ rs, key a ∈ ix.keys a ∧ p <+: key a)
    (hblock : ∀ k a j, L.records db k = some a → j ∈ ix.keys a → p <+: j → a ∈ rs ∧ j = key a)
    (hfetch : ∀ a ∈ rs, fetch (key a) = .ok a) :
    ∃ r, ((scan (db ix.cf) p).mapM fun e => fetch e.1) = .ok r ∧ r.Perm rs := by
  have hkeys : ((OrderedMap.scan (db ix.cf) p).map Prod.fst).Perm (rs.map key) := by
    rw [List.perm_ext_iff_of_nodup]
    · intro j
      constructor
      · intro hj
        obtain ⟨e, he, rfl⟩ := List.mem_map.mp hj
        obtain ⟨hv, hp⟩ := (mem_scan _).mp he
        have hstored : e.1 ∈ stored db ix.cf := by
          rw [mem_stored, hv]
          exact Option.some_ne_none _
        obtain ⟨k, a, ha, hja⟩ := (hmirror e.1).mp hstored
        obtain ⟨hrs, hj⟩ := hblock k a e.1 ha hja hp
        exact List.mem_map.mpr ⟨a, hrs, hj.symm⟩
      · intro hj
        obtain ⟨a, ha, rfl⟩ := List.mem_map.mp hj
        obtain ⟨hmem, hp⟩ := hkey a ha
        have hstored : key a ∈ stored db ix.cf := (hmirror _).mpr ⟨_, a, hrs a ha, hmem⟩
        obtain ⟨v, hv⟩ := Option.ne_none_iff_exists'.mp hstored
        exact List.mem_map.mpr ⟨(key a, v), (mem_scan _).mpr ⟨hv, hp⟩, rfl⟩
    · exact List.pairwise_map.mpr ((pairwise_scan _ p).imp fun hlt => hlt.ne)
    · -- index keys of different records differ
      rw [List.nodup_map_iff_inj_on hnodup.of_map]
      intro a ha a' ha' heq
      have hsame := ix.separated a a' (key a) (hkey a ha).1 (heq ▸ (hkey a' ha').1)
      have := (hrs a ha).symm.trans (hsame ▸ hrs a' ha')
      exact Option.some_injective _ this
  obtain ⟨r, hr, hperm⟩ := List.mapM_perm_of_keys hkeys hfetch
  refine ⟨r, ?_, hperm⟩
  rwa [List.mapM_map] at hr

end Scans

/-! ## The reads of the engine -/

variable {bin : Bincode} {db : Db}

theorem decodeIdSuffix_append {msg : String} {key : Bytes} (u : Uuid) :
    decodeIdSuffix msg (key ++ u.bytes) = .ok u := by
  unfold decodeIdSuffix
  have hid : Uuid.fromSlice (idSuffix (key ++ u.bytes)) = some u := by
    rw [idSuffix_append u.length_eq]
    exact Uuid.fromSlice_bytes u
  rw [hid]

/-- `scan_nodes` and `scan_nodes_by_label`. -/
theorem nodes_agree (ixs : List (nodeLayout bin).Index)
    (h : (nodeLayout bin).Consistent LabelsFit ixs db) (hix : nodeLabelIndex bin ∈ ixs)
    (g : GraphId) :
    ∃ ns, StorageEngine.scanNodes bin db g = .ok ns ∧ (ns.map Node.id).Nodup ∧
      ∀ l : Label, l.Fits → ∃ r, StorageEngine.scanNodesByLabel bin db g l = .ok r ∧
        r.Perm (ns.filter fun n => n.labels.contains l) := by
  obtain ⟨ns, hscan, hnodup, hmem⟩ := h.decodes.scan g.asBytes
  have hgraph : ∀ n ∈ ns, n.graphId = g := fun n hn => (graph_prefix_iff.mp ((hmem n).mp hn).2).symm
  refine ⟨ns, hscan, ?_, ?_⟩
  · have hkeys : ns.map (nodeLayout bin).key = (ns.map Node.id).map (encodeNodeKey g) := by
      rw [List.map_map]
      refine List.map_congr_left fun n hn => ?_
      rw [Function.comp_apply, ← hgraph n hn]
      rfl
    exact (hkeys ▸ hnodup).of_map
  · intro l hl
    apply index_read _ (encodeNodeLabelPrefix g l) (fun n => encodeNodeLabelKey g l n.id) (fun k => do
      let id ← decodeIdSuffix "invalid node id in label index" k
      StorageEngine.getNode bin db g ⟨id⟩) (h.mirrors _ hix)
    · exact hnodup.sublist (List.filter_sublist.map _)
    · intro n hn
      exact ((hmem n).mp (List.mem_filter.mp hn).1).1
    · intro n hn
      obtain ⟨hn, hcontains⟩ := List.mem_filter.mp hn
      rw [Std.ExtTreeSet.contains_iff_mem] at hcontains
      refine ⟨List.mem_map.mpr ⟨l, Std.ExtTreeSet.mem_toList.mpr hcontains, by rw [hgraph n hn]⟩, ?_⟩
      exact (nodeLabelPrefix_prefix_iff hl hl).mpr ⟨rfl, rfl⟩
    · -- a key of the block was built from this graph and this label
      intro k n j hn hj hp
      obtain ⟨l', hl', rfl⟩ := List.mem_map.mp hj
      rw [Std.ExtTreeSet.mem_toList] at hl'
      obtain ⟨rfl, rfl⟩ := (nodeLabelPrefix_prefix_iff hl (h.decodes.isGood hn l' hl')).mp hp
      have hkey := h.decodes.wellKeyed k n hn
      subst hkey
      refine ⟨List.mem_filter.mpr ⟨(hmem n).mpr ⟨hn, graph_prefix_iff.mpr rfl⟩, ?_⟩, rfl⟩
      exact Std.ExtTreeSet.contains_iff_mem.mpr hl'
    · intro n hn
      obtain ⟨hn, -⟩ := List.mem_filter.mp hn
      have hget : StorageEngine.getNode bin db g n.id = .ok n := by
        rw [getNode_eq_ok, ← hgraph n hn]
        exact ((hmem n).mp hn).1
      show (decodeIdSuffix _ (encodeNodeLabelKey g l n.id) >>= fun id => StorageEngine.getNode bin db g ⟨id⟩) = _
      rw [encodeNodeLabelKey, NodeId.asBytes, decodeIdSuffix_append]
      exact hget

/-- The prefix of an adjacency read. -/
def adjacencyPrefix (g : GraphId) (n : NodeId) (f : Option Label) : Bytes :=
  match f with
  | some l => adjLabelPrefix g n l
  | none => adjPrefix g n

/-- Among the edges that satisfy `Q`, the prefix of a read selects those at the node that satisfy `q`. -/
def Selects (Q : Edge → Prop) (f : Option Label) (q : Edge → Bool) : Prop :=
  ∀ g n n' e, Q e → (adjacencyPrefix g n f <+: adjKey e.graphId n' e.label e.id ↔
    g = e.graphId ∧ n' = n ∧ q e)

/-- When the labels fit, these are the edges that match the filter. -/
theorem selects_matchesLabel {Q : Edge → Prop} {f : Option Label}
    (hf : ∀ l ∈ f, l.Fits ∧ ∀ e, Q e → e.label.Fits) : Selects Q f (matchesLabel f) := by
  intro g n n' e he
  cases f with
  | none =>
    rw [adjacencyPrefix, adjPrefix_prefix_iff]
    simp [matchesLabel, @eq_comm _ n]
  | some l =>
    rw [adjacencyPrefix, adjLabelPrefix_prefix_iff (hf l rfl).1 ((hf l rfl).2 e he)]
    simp [matchesLabel, @eq_comm _ n, @eq_comm _ l]

/-- The loop of the two adjacency reads, for the index of either endpoint. -/
theorem adjacent_agree {ix : (edgeLayout bin).Index} {endpoint : Edge → NodeId} {Q : Edge → Prop}
    (hkeys : ∀ e, ix.keys e = [adjKey e.graphId (endpoint e) e.label e.id])
    (hdec : (edgeLayout bin).Decodes Q db)
    (hmirror : Mirrors ix.keySet ((edgeLayout bin).records db) (stored db ix.cf))
    {g : GraphId} {es : List Edge} (hnodup : (es.map (edgeLayout bin).key).Nodup)
    (hmem : ∀ e, e ∈ es ↔ (edgeLayout bin).records db ((edgeLayout bin).key e) = some e ∧
      g.asBytes <+: (edgeLayout bin).key e)
    (n : NodeId) (f : Option Label) {q : Edge → Bool} (hselects : Selects Q f q) :
    ∃ r, StorageEngine.adjacentEdges bin db g ix.cf (adjacencyPrefix g n f) = .ok r ∧
      r.Perm (es.filter fun e => endpoint e == n && q e) := by
  have hgraph : ∀ e ∈ es, e.graphId = g := fun e he => (graph_prefix_iff.mp ((hmem e).mp he).2).symm
  apply index_read _ _ (fun e => adjKey g (endpoint e) e.label e.id) (fun k => do
    let id ← decodeIdSuffix "invalid edge id in adj index" k
    StorageEngine.getEdge bin db g ⟨id⟩) hmirror
  · exact hnodup.sublist (List.filter_sublist.map _)
  · intro e he
    exact ((hmem e).mp (List.mem_filter.mp he).1).1
  · intro e he
    obtain ⟨he, hq⟩ := List.mem_filter.mp he
    simp only [Bool.and_eq_true, beq_iff_eq] at hq
    have hgood := hdec.isGood ((hmem e).mp he).1
    rw [hkeys, List.mem_singleton, ← hgraph e he]
    exact ⟨rfl, (hselects _ _ _ e hgood).mpr ⟨rfl, hq⟩⟩
  · intro k e j he hj hp
    rw [hkeys, List.mem_singleton] at hj
    subst hj
    obtain ⟨rfl, hq⟩ := (hselects _ _ _ e (hdec.isGood he)).mp hp
    have hkey := hdec.wellKeyed k e he
    subst hkey
    refine ⟨List.mem_filter.mpr ⟨(hmem e).mpr ⟨he, graph_prefix_iff.mpr rfl⟩, ?_⟩, rfl⟩
    simpa using hq
  · intro e he
    obtain ⟨he, -⟩ := List.mem_filter.mp he
    have hget : StorageEngine.getEdge bin db g e.id = .ok e := by
      rw [getEdge_eq_ok, ← hgraph e he]
      exact ((hmem e).mp he).1
    show (decodeIdSuffix _ (adjKey g (endpoint e) e.label e.id) >>= fun id =>
      StorageEngine.getEdge bin db g ⟨id⟩) = _
    rw [adjKey, EdgeId.asBytes, decodeIdSuffix_append]
    exact hget

/-- `scan_edges` and the adjacency reads. -/
theorem edges_agree {Q : Edge → Prop} (ixs : List (edgeLayout bin).Index)
    (h : (edgeLayout bin).Consistent Q ixs db) (hout : adjOutIndex bin ∈ ixs)
    (hin : adjInIndex bin ∈ ixs) (g : GraphId) :
    ∃ es, StorageEngine.scanEdges bin db g = .ok es ∧ (es.map Edge.id).Nodup ∧
      ∀ (n : NodeId) (f : Option Label) (q : Edge → Bool), Selects Q f q →
        (∃ r, StorageEngine.getOutgoingEdges bin db g n f = .ok r ∧
          r.Perm (es.filter fun e => e.source == n && q e)) ∧
        ∃ r, StorageEngine.getIncomingEdges bin db g n f = .ok r ∧
          r.Perm (es.filter fun e => e.target == n && q e) := by
  obtain ⟨es, hscan, hnodup, hmem⟩ := h.decodes.scan g.asBytes
  refine ⟨es, hscan, ?_, ?_⟩
  · have hkeys : es.map (edgeLayout bin).key = (es.map Edge.id).map (encodeEdgeKey g) := by
      rw [List.map_map]
      refine List.map_congr_left fun e he => ?_
      rw [Function.comp_apply, graph_prefix_iff.mp ((hmem e).mp he).2]
      rfl
    exact (hkeys ▸ hnodup).of_map
  · intro n f q hq
    constructor
    · exact adjacent_agree (fun e => rfl) h.decodes (h.mirrors _ hout) hnodup hmem n f hq
    · exact adjacent_agree (fun e => rfl) h.decodes (h.mirrors _ hin) hnodup hmem n f hq

/-- The same when every label fits. -/
theorem edges_agree_of_fits (ixs : List (edgeLayout bin).Index)
    (h : (edgeLayout bin).Consistent (fun e => e.label.Fits) ixs db) (hout : adjOutIndex bin ∈ ixs)
    (hin : adjInIndex bin ∈ ixs) (g : GraphId) :
    ∃ es, StorageEngine.scanEdges bin db g = .ok es ∧ (es.map Edge.id).Nodup ∧
      ∀ (n : NodeId) (f : Option Label), (∀ l ∈ f, l.Fits) →
        (∃ r, StorageEngine.getOutgoingEdges bin db g n f = .ok r ∧
          r.Perm (es.filter fun e => e.source == n && matchesLabel f e)) ∧
        ∃ r, StorageEngine.getIncomingEdges bin db g n f = .ok r ∧
          r.Perm (es.filter fun e => e.target == n && matchesLabel f e) := by
  obtain ⟨es, hes, hnodup, hadj⟩ := edges_agree ixs h hout hin g
  refine ⟨es, hes, hnodup, fun n f hf => hadj n f _ (selects_matchesLabel ?_)⟩
  exact fun l hl => ⟨hf l hl, fun _ he => he⟩

/-- **A consistent store agrees with itself.** -/
theorem Consistent.agreement (h : Consistent bin db) : Agreement bin db where
  nodes := nodes_agree _ h.nodes (by simp [nodeIndexes])
  edges := edges_agree_of_fits _ h.edges (by simp [edgeIndexes]) (by simp [edgeIndexes])

end Synaptica.Storage
