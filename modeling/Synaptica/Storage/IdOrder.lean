import Synaptica.Lib.Fallible
import Synaptica.Storage.IndexContents
import Synaptica.Storage.Stored

/-!
# Nodes in the order of their identifiers

A key that belongs to a node ends with its identifier. Where a read goes through the keys under one
prefix that is followed by nothing but an identifier, it meets its nodes in the order of these, whatever
the column family: the scan of a graph, the scan of a label and the lookup of given values in a complete
index all answer in that order. Two such answers are the same list when they have the same members.
-/

namespace Synaptica.Storage

open OrderedMap (scan)

/-- The nodes come in the order of their identifiers. -/
def InIdOrder (ns : List Node) : Prop := ns.Pairwise fun n n' => n.id.asBytes < n'.id.asBytes

theorem InIdOrder.filter {ns : List Node} (h : InIdOrder ns) (p : Node → Bool) : InIdOrder (ns.filter p) :=
  List.Pairwise.filter p h

theorem InIdOrder.sublist {ns ns' : List Node} (h : InIdOrder ns) (hsub : ns'.Sublist ns) : InIdOrder ns' :=
  List.Pairwise.sublist hsub h

theorem InIdOrder.nodup {ns : List Node} (h : InIdOrder ns) : ns.Nodup := by
  refine List.Pairwise.imp ?_ h
  rintro n _ hlt rfl
  exact lt_irrefl _ hlt

/-- The members determine the list. -/
theorem InIdOrder.eq_iff {ns ns' : List Node} (h : InIdOrder ns) (h' : InIdOrder ns') :
    ns = ns' ↔ ∀ n, n ∈ ns ↔ n ∈ ns' := by
  constructor
  · rintro rfl n
    rfl
  · intro hmem
    have hperm := (List.perm_ext_iff_of_nodup h.nodup h'.nodup).mpr hmem
    exact hperm.eq_of_pairwise (fun a b _ _ hab hba => absurd hab (lt_asymm hba)) h h'

/-! ## Blocks of keys -/

variable {bin : Bincode} {P : Node → Prop} {Q : Edge → Prop} {db : Db} {g : GraphId}

/-- A block whose keys are a prefix with the identifiers of some stored nodes behind it. -/
theorem exists_block {c : ColumnFamily} {p : Bytes} {S : Node → Prop}
    (hstored : ∀ n, S n → HasNode bin db g n)
    (hkeys : ∀ b, p <+: b → (((db c)[b]?).isSome ↔ ∃ n, S n ∧ p ++ n.id.asBytes = b)) :
    ∃ ns : List Node, (scan (db c) p).map Prod.fst = ns.map (fun n => p ++ n.id.asBytes) ∧
      InIdOrder ns ∧ ∀ n, n ∈ ns ↔ S n := by
  have hscan : ∀ b, b ∈ (scan (db c) p).map Prod.fst ↔ ∃ n, S n ∧ p ++ n.id.asBytes = b := by
    intro b
    simp only [List.mem_map, OrderedMap.mem_scan]
    constructor
    · rintro ⟨e, ⟨he, hp⟩, rfl⟩
      exact (hkeys _ hp).mp (by simp [he])
    · rintro ⟨n, hn, rfl⟩
      have hp : p <+: p ++ n.id.asBytes := List.prefix_append _ _
      obtain ⟨v, hv⟩ := Option.isSome_iff_exists.mp ((hkeys _ hp).mpr ⟨n, hn, rfl⟩)
      exact ⟨(_, v), ⟨hv, hp⟩, rfl⟩
  obtain ⟨ns, hns, hS⟩ := List.exists_map_eq fun b hb => (hscan b).mp hb
  refine ⟨ns, hns.symm, ?_, fun n => ⟨hS n, fun hn => ?_⟩⟩
  · have hsorted := List.pairwise_map.mpr (OrderedMap.pairwise_scan (db c) p)
    rw [← hns, List.pairwise_map] at hsorted
    exact hsorted.imp fun hlt => (LexOrder.append_lt_append_iff _ _ _).mp hlt
  · have hkey := (hscan _).mpr ⟨n, hn, rfl⟩
    rw [← hns] at hkey
    obtain ⟨n', hn', heq⟩ := List.mem_map.mp hkey
    have hid := NodeId.asBytes_injective (List.append_cancel_left heq)
    rwa [← (hstored n' (hS n' hn')).eq_of_id (hstored n hn) hid]

/-! ## The scan of a graph -/

/-- The scan of a graph finds the stored nodes in order. -/
theorem WellIndexed.exists_scanNodes_inIdOrder (h : WellIndexed bin P Q db) (g : GraphId) :
    ∃ ns, StorageEngine.scanNodes bin db g = .ok ns ∧ InIdOrder ns ∧ ∀ n, n ∈ ns ↔ HasNode bin db g n := by
  have hvalue : ∀ n, HasNode bin db g n ↔
      ∃ v, (db .nodes)[encodeNodeKey g n.id]? = some v ∧ bin.node.deserialize v = .ok n := fun n =>
    getNode_eq_ok.trans Layout.records_eq_some
  obtain ⟨ns, hkeys, hordered, hmem⟩ := @exists_block bin db g .nodes (encodeNodePrefix g)
    (HasNode bin db g) (fun _ hn => hn) fun b hb => by
      constructor
      · intro hb'
        obtain ⟨v, hv⟩ := Option.isSome_iff_exists.mp hb'
        obtain ⟨n, hn, rfl, -⟩ := h.nodes.decodes b v hv
        obtain rfl : g = n.graphId := graph_prefix_iff.mp hb
        exact ⟨n, (hvalue n).mpr ⟨v, hv, hn⟩, rfl⟩
      · rintro ⟨n, hn, rfl⟩
        obtain ⟨v, hv, -⟩ := (hvalue n).mp hn
        exact Option.isSome_iff_exists.mpr ⟨v, hv⟩
  refine ⟨ns, List.mapM_eq_ok_of_map_eq hkeys fun e he n hn hkey => ?_, hordered, hmem⟩
  obtain ⟨v, hv, hdecode⟩ := (hvalue n).mp ((hmem n).mp hn)
  have hsame := ((OrderedMap.mem_scan _).mp he).1
  rw [hkey] at hsame
  cases hsame.symm.trans hv
  exact deserializeValue_eq_ok.mpr hdecode

/-! ## The scan of a label -/

/-- The length in front tells where the bytes of a label end, even when it is cut. -/
theorem encodeLabel_isPrefix_iff {l l' : String} (x : Bytes) :
    encodeLabel l <+: encodeLabel l' ++ x ↔ encodeLabel l = encodeLabel l' := by
  have hlt : ∀ s : String, min (utf8 s).length 65535 < 256 ^ 2 := fun s =>
    lt_of_le_of_lt (min_le_right _ _) (by norm_num)
  constructor
  · intro h
    refine eq_of_prefix_append ?_ h
    rw [encodeLabel, encodeLabel, List.append_assoc, append_prefix_append_iff (by simp)] at h
    have hlen := (BigEndian.beBytes_inj (hlt l) (hlt l')).mp h.1
    simp only [encodeLabel, List.length_append, BigEndian.length_beBytes, List.length_take, hlen]
    omega
  · intro h
    rw [h]
    exact List.prefix_append _ _

/-- The node is found under the key of the label, which is cut when the label is too long. -/
def FoundUnder (l : String) (n : Node) : Prop := ∃ l' ∈ n.labels, encodeLabel l'.name = encodeLabel l

theorem foundUnder_of_mem {l : String} {n : Node} (h : ⟨l⟩ ∈ n.labels) : FoundUnder l n := ⟨_, h, rfl⟩

/-- The scan of a label finds in order the nodes that have a label with its key. -/
theorem WellIndexed.exists_scanNodesByLabel_inIdOrder (h : WellIndexed bin P Q db) (g : GraphId)
    (l : Label) : ∃ ns, StorageEngine.scanNodesByLabel bin db g l = .ok ns ∧ InIdOrder ns ∧
      ∀ n, n ∈ ns ↔ HasNode bin db g n ∧ FoundUnder l.name n := by
  have hentry : ∀ b, ((db .nodeLabels)[b]?).isSome ↔
      ∃ k n, (nodeLayout bin).records db k = some n ∧
        ∃ l' ∈ n.labels, encodeNodeLabelKey n.graphId l' n.id = b := by
    intro b
    have hmirrors := h.nodes.mirrors (nodeLabelIndex bin) (by simp [nodeIndexes]) b
    have hstored : b ∈ stored db (nodeLabelIndex bin).cf ↔ ((db .nodeLabels)[b]?).isSome := by
      rw [mem_stored, Option.isSome_iff_ne_none]
      rfl
    rw [← hstored, hmirrors]
    simp [Layout.Index.keySet, nodeLabelIndex]
  obtain ⟨ns, hkeys, hordered, hmem⟩ := @exists_block bin db g .nodeLabels (encodeNodeLabelPrefix g l)
    (fun n => HasNode bin db g n ∧ FoundUnder l.name n) (fun _ hn => hn.1) fun b hb => by
      rw [hentry b]
      constructor
      · rintro ⟨k, n, hn, l', hl', rfl⟩
        obtain rfl := h.nodes.decodes.wellKeyed k n hn
        rw [encodeNodeLabelPrefix, encodeNodeLabelKey, List.append_assoc,
          append_prefix_append_iff (by simp), encodeLabel_isPrefix_iff, graphBytes_inj] at hb
        obtain ⟨rfl, hlabel⟩ := hb
        refine ⟨n, ⟨h.hasNode_iff.mpr ⟨hn, graph_prefix_iff.mpr rfl⟩, l', hl', hlabel.symm⟩, ?_⟩
        rw [encodeNodeLabelPrefix, encodeNodeLabelKey, hlabel]
      · rintro ⟨n, ⟨hn, l', hl', hlabel⟩, rfl⟩
        obtain ⟨hrecord, hg⟩ := h.hasNode_iff.mp hn
        obtain rfl : g = n.graphId := graph_prefix_iff.mp hg
        refine ⟨_, n, hrecord, l', hl', ?_⟩
        rw [encodeNodeLabelPrefix, encodeNodeLabelKey, hlabel]
  refine ⟨ns, List.mapM_eq_ok_of_map_eq hkeys fun e he n hn hkey => ?_, hordered, hmem⟩
  have hid : decodeIdSuffix "invalid node id in label index" e.1 = .ok n.id.uuid := by
    rw [hkey]
    exact decodeIdSuffix_append n.id.uuid
  rw [hid]
  exact ((hmem n).mp hn).1

/-! ## The lookup in a complete index -/

theorem isKeyValue_iff_keyTag (v : Value) : isKeyValue v ↔ keyTag v ∈ [0x00, 0x01, 0x02, 0x04] := by
  cases v <;> simp [isKeyValue, keyTag]

/-- The encoding of a key value starts the encoding of that value only. -/
theorem eq_of_encode_isPrefix_left (rt : Runtime) {v w : Value} (hv : isKeyValue v) (rest : Bytes)
    (h : encodeValueComparable rt v <+: encodeValueComparable rt w ++ rest) : v = w := by
  have htag : keyTag v = keyTag w := by
    obtain ⟨body, hbody⟩ := encode_eq_cons rt v
    obtain ⟨body', hbody'⟩ := encode_eq_cons rt w
    rw [hbody, hbody', List.cons_append, List.cons_prefix_cons] at h
    exact h.1
  have hw : isKeyValue w := by
    rw [isKeyValue_iff_keyTag, ← htag]
    exact (isKeyValue_iff_keyTag v).mp hv
  exact eq_of_encode_isPrefix rt hw rest h

theorem eq_of_encodeValues_isPrefix_left (rt : Runtime) {vs ws : List Value}
    (hlen : vs.length = ws.length) (hvs : ∀ v ∈ vs, isKeyValue v) (rest : Bytes)
    (h : encodeValues rt vs <+: encodeValues rt ws ++ rest) : vs = ws := by
  induction vs generalizing ws with
  | nil =>
    cases ws with
    | nil => rfl
    | cons w ws => cases hlen
  | cons v vs ih =>
    cases ws with
    | nil => cases hlen
    | cons w ws =>
      obtain ⟨hv, hrest⟩ := List.forall_mem_cons.mp hvs
      rw [encodeValues_cons, encodeValues_cons, List.append_assoc] at h
      obtain rfl := eq_of_encode_isPrefix_left rt hv _ ((List.prefix_append _ _).trans h)
      rw [List.prefix_append_right_inj] at h
      rw [ih (Nat.succ.inj hlen) hrest h]

variable {rt : Runtime}

/-- Under the name of the index there are exactly the entries of the stored nodes with `S`. -/
def Complete (rt : Runtime) (db : Db) (d : IndexDefinition) (S : Node → Prop) : Prop :=
  ∀ b, namedPrefix rt d.graphId d.name <+: b → (((db .propIndex)[b]?).isSome ↔
    ∃ n, (HasNode rt.bin db d.graphId n ∧ S n) ∧ ownKey rt d n = b)

/-- A lookup in a complete index finds in order the nodes that have the values. -/
theorem Complete.exists_lookup {d : IndexDefinition} {S : Node → Prop} (h : Complete rt db d S)
    (values : List Value) (hlen : values.length = d.propertyNames.length)
    (hvalues : ∀ v ∈ values, isKeyValue v) :
    ∃ ns, IndexManager.lookup rt db d values = .ok (ns.map Node.id) ∧ InIdOrder ns ∧
      ∀ n, n ∈ ns ↔ (HasNode rt.bin db d.graphId n ∧ S n) ∧ indexedValues d n = values := by
  have hunder : namedPrefix rt d.graphId d.name <+:
      IndexManager.entryValuePrefix rt d (encodeValues rt values) := List.prefix_append _ _
  have howned : ∀ n, indexedValues d n = values → ownKey rt d n =
      IndexManager.entryValuePrefix rt d (encodeValues rt values) ++ n.id.asBytes := by
    rintro n rfl
    rfl
  obtain ⟨ns, hkeys, hordered, hmem⟩ := @exists_block rt.bin db d.graphId .propIndex
    (IndexManager.entryValuePrefix rt d (encodeValues rt values))
    (fun n => (HasNode rt.bin db d.graphId n ∧ S n) ∧ indexedValues d n = values) (fun _ hn => hn.1.1)
    fun b hb => by
      rw [h b (hunder.trans hb)]
      constructor
      · rintro ⟨n, hn, rfl⟩
        have hsame : values = indexedValues d n := by
          refine eq_of_encodeValues_isPrefix_left rt (by simp [hlen, indexedValues]) hvalues n.id.asBytes ?_
          rw [ownKey_eq] at hb
          exact (List.prefix_append_right_inj _).mp hb
        exact ⟨n, ⟨hn, hsame.symm⟩, (howned n hsame.symm).symm⟩
      · rintro ⟨n, ⟨hn, hsame⟩, rfl⟩
        exact ⟨n, hn, howned n hsame⟩
  refine ⟨ns, ?_, hordered, hmem⟩
  rw [IndexManager.lookup, entryIds]
  set l := scan (db .propIndex) (IndexManager.entryValuePrefix rt d (encodeValues rt values))
  have hlong : l.filter (fun e => 16 ≤ e.1.length) = l := by
    refine List.filter_eq_self.mpr fun e he => ?_
    obtain ⟨n, -, hn⟩ := List.mem_map.mp (hkeys ▸ List.mem_map_of_mem he : e.1 ∈ ns.map _)
    rw [← hn]
    simp
  rw [hlong]
  have hids : l.map Prod.fst = (ns.map Node.id).map fun i =>
      IndexManager.entryValuePrefix rt d (encodeValues rt values) ++ i.asBytes := by
    rw [hkeys, List.map_map]
    rfl
  refine List.mapM_eq_ok_of_map_eq hids fun e _ i _ hkey => ?_
  have hid : decodeIdSuffix "invalid node id" e.1 = .ok i.uuid := by
    rw [hkey]
    exact decodeIdSuffix_append i.uuid
  rw [hid]
  rfl

end Synaptica.Storage
