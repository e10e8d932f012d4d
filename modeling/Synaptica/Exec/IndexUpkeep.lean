import Synaptica.Exec.Calls
import Synaptica.Exec.Sequencing
import Synaptica.Storage.Bincode
import Synaptica.Storage.IndexContents

/-!
# Entries that follow the nodes

The hooks on the write paths take a node's entries out of the indexes before the node is written, and
put its new ones in afterwards. `Maintained` says what they keep up: whatever the index column family
holds is a definition, or the entry of a stored node in a listed index, under the values the node has
now. What the hooks rely on is that the definitions have not changed since the entries were made, and
`CREATE INDEX` does not see to that: it puts a new definition over one of the same name and leaves the
entries. A run in which no index is redefined while it has entries leaves no stale entry
(`run_noStaleEntries`).
-/

open Journaled

namespace Synaptica.Exec

open Gql Storage

/-! ## The listed definitions -/

section Listed

variable {rt : Runtime} {db db' : Db} {g : GraphId} {d d' : IndexDefinition}

/-- The definition is stored under its graph and name. -/
def Listed (rt : Runtime) (db : Db) (d : IndexDefinition) : Prop :=
  ∃ v, (db .propIndex)[IndexManager.metaKey d.graphId d.name]? = some v ∧
    rt.bin.indexDefinition.deserialize v = .ok d

theorem metaKey_inj {name name' : String} {g' : GraphId} :
    IndexManager.metaKey g name = IndexManager.metaKey g' name' ↔ g = g' ∧ name = name' := by
  constructor
  · intro h
    obtain ⟨hg, hname⟩ := List.append_inj h (by simp)
    exact ⟨GraphId.asBytes_injective hg, utf8_injective (List.cons.inj hname).2⟩
  · rintro ⟨rfl, rfl⟩
    rfl

theorem Listed.eq (h : Listed rt db d) (h' : Listed rt db d') (hg : d.graphId = d'.graphId)
    (hname : d.name = d'.name) : d = d' := by
  obtain ⟨v, hv, hd⟩ := h
  obtain ⟨v', hv', hd'⟩ := h'
  rw [hg, hname, hv'] at hv
  cases hv
  rw [hd'] at hd
  cases hd
  rfl

theorem Listed.congr (h : Listed rt db d)
    (hsame : (db' .propIndex)[IndexManager.metaKey d.graphId d.name]? =
      (db .propIndex)[IndexManager.metaKey d.graphId d.name]?) : Listed rt db' d := by
  obtain ⟨v, hv, hd⟩ := h
  exact ⟨v, hsame.trans hv, hd⟩

end Listed

/-! ## The invariant -/

section Maintained

variable {rt : Runtime} {db db' : Db} {g : GraphId}

/-- The entry of a stored node in a listed index. -/
structure IsEntry (rt : Runtime) (db : Db) (d : IndexDefinition) (n : Node) : Prop where
  listed : Listed rt db d
  covers : covers d n
  stored : HasNode rt.bin db d.graphId n

/-- Whatever the index column family holds is a definition or the entry of a stored node, and names are
told apart by their hashes. -/
structure Maintained (rt : Runtime) (db : Db) : Prop where
  wellIndexed : WellIndexed rt.bin (fun _ => True) (fun _ => True) db
  keys : ∀ k v, (db .propIndex)[k]? = some v →
    (∃ d, k = IndexManager.metaKey d.graphId d.name ∧ rt.bin.indexDefinition.deserialize v = .ok d) ∨
      ∃ d n, IsEntry rt db d n ∧ k = ownKey rt d n
  names : ∀ d d', Listed rt db d → Listed rt db d' → d.graphId = d'.graphId →
    rt.hash d.name = rt.hash d'.name → d.name = d'.name

theorem maintained_empty : Maintained rt Db.empty where
  wellIndexed := wellIndexed_empty
  keys k v h := by simp [Db.empty] at h
  names d d' h := by
    obtain ⟨v, hv, -⟩ := h
    simp [Db.empty] at hv

theorem ownKey_ne_metaKey (d : IndexDefinition) (n : Node) (g : GraphId) (name : String) :
    ownKey rt d n ≠ IndexManager.metaKey g name := by
  intro h
  refine not_namedPrefix_metaKey rt d.graphId g d.name name ?_
  rw [← h, ownKey_eq]
  exact namedPrefix_key (entryOf d n)

/-- An own key lies under one name only. -/
theorem namedPrefix_ownKey {name : String} {d : IndexDefinition} {n : Node} :
    namedPrefix rt g name <+: ownKey rt d n ↔ g = d.graphId ∧ rt.hash name = rt.hash d.name := by
  constructor
  · intro h
    rw [ownKey_eq] at h
    exact namedPrefix_prefix rt h
  · rintro ⟨rfl, hhash⟩
    have hsame : namedPrefix rt d.graphId name = namedPrefix rt d.graphId d.name := by
      rw [namedPrefix, namedPrefix, hashIndexName, hashIndexName, hhash]
    rw [hsame, ownKey_eq]
    exact namedPrefix_key (entryOf d n)

/-- An own key ends with the id of its node. -/
theorem id_eq_of_ownKey_eq {d d' : IndexDefinition} {n n' : Node} (h : ownKey rt d n = ownKey rt d' n') :
    n.id = n'.id :=
  NodeId.asBytes_injective (List.append_inj' h (by simp)).2

/-- The definitions that are listed for a graph. -/
theorem Maintained.exists_listIndexes (h : Maintained rt db) (g : GraphId) :
    ∃ defs, IndexManager.listIndexes rt db g = .ok defs ∧
      ∀ d, d ∈ defs ↔ Listed rt db d ∧ d.graphId = g := by
  have hentry : ∀ e ∈ OrderedMap.scan (db .propIndex) (IndexManager.metaPrefix g), ∃ d,
      deserializeValue rt.bin.indexDefinition e.2 = .ok d ∧
        e.1 = IndexManager.metaKey g d.name ∧ d.graphId = g := by
    intro e he
    obtain ⟨hv, hp⟩ := (OrderedMap.mem_scan _).mp he
    rcases h.keys e.1 e.2 hv with ⟨d, hk, hd⟩ | ⟨d, n, -, hk⟩
    · obtain ⟨x, hx⟩ := hp
      rw [hk, IndexManager.metaPrefix, IndexManager.metaKey, List.append_assoc] at hx
      obtain rfl := GraphId.asBytes_injective (List.append_inj hx (by simp)).1
      exact ⟨d, deserializeValue_eq_ok.mpr hd, hk, rfl⟩
    · -- the key of an entry does not start like that of a definition
      obtain ⟨x, hx⟩ := hp
      rw [hk, ownKey_eq, IndexEntry.key, namedPrefix, IndexManager.metaPrefix, List.append_assoc,
        List.append_assoc] at hx
      have hmarker := (List.append_inj hx (by simp)).2
      simp at hmarker
  have hok := List.mapM_eq_ok_filterMap fun e he => (hentry e he).imp fun d hd => hd.1
  refine ⟨_, hok, fun d => ?_⟩
  rw [List.mem_filterMap]
  constructor
  · rintro ⟨e, he, hd⟩
    obtain ⟨d', hd', hk, hg⟩ := hentry e he
    rw [hd'] at hd
    cases hd
    refine ⟨⟨e.2, ?_, deserializeValue_eq_ok.mp hd'⟩, hg⟩
    rw [hg, ← hk]
    exact ((OrderedMap.mem_scan _).mp he).1
  · rintro ⟨⟨v, hv, hd⟩, rfl⟩
    refine ⟨(_, v), (OrderedMap.mem_scan _).mpr ⟨hv, ?_⟩, ?_⟩
    · exact ⟨utf8 d.name, by simp [IndexManager.metaPrefix]⟩
    · simp [deserializeValue_eq_ok.mpr hd, Except.toOption]

/-! ## One call -/

/-- The node has an entry in a listed index. -/
def Indexed (rt : Runtime) (db : Db) (g : GraphId) (n : Node) : Prop :=
  ∃ d, Listed rt db d ∧ d.graphId = g ∧ covers d n ∧ (db .propIndex)[ownKey rt d n]? ≠ none

theorem listed_congr (h : ∀ g name, (db' .propIndex)[IndexManager.metaKey g name]? =
      (db .propIndex)[IndexManager.metaKey g name]?) {d : IndexDefinition} :
    Listed rt db' d ↔ Listed rt db d :=
  ⟨fun hd => hd.congr (h _ _).symm, fun hd => hd.congr (h _ _)⟩

/-- A call that leaves the definitions alone has to answer for the entries only. -/
theorem Maintained.of_entries (h : Maintained rt db)
    (hw : WellIndexed rt.bin (fun _ => True) (fun _ => True) db')
    (hmeta : ∀ g name, (db' .propIndex)[IndexManager.metaKey g name]? =
      (db .propIndex)[IndexManager.metaKey g name]?)
    (hkeys : ∀ k, (db' .propIndex)[k]? ≠ none → (∃ g name, k = IndexManager.metaKey g name) ∨
      ∃ d n, IsEntry rt db' d n ∧ k = ownKey rt d n) : Maintained rt db' where
  wellIndexed := hw
  keys k v hv := by
    rcases hkeys k (by simp [hv]) with ⟨g, name, rfl⟩ | hentry
    · rw [hmeta] at hv
      rcases h.keys _ v hv with hdef | ⟨d, n, -, hk⟩
      · exact .inl hdef
      · exact absurd hk.symm (ownKey_ne_metaKey d n g name)
    · exact .inr hentry
  names d d' hd hd' := h.names d d' ((listed_congr hmeta).mp hd) ((listed_congr hmeta).mp hd')

theorem Maintained.keys_cases (h : Maintained rt db) {k : Bytes} (hk : (db .propIndex)[k]? ≠ none) :
    (∃ g name, k = IndexManager.metaKey g name) ∨ ∃ d n, IsEntry rt db d n ∧ k = ownKey rt d n := by
  obtain ⟨v, hv⟩ := Option.ne_none_iff_exists'.mp hk
  rcases h.keys k v hv with ⟨d, rfl, -⟩ | hentry
  · exact .inl ⟨_, _, rfl⟩
  · exact .inr hentry

/-- Nodes without an entry may come and go. -/
theorem Maintained.of_nodes (h : Maintained rt db)
    (hw : WellIndexed rt.bin (fun _ => True) (fun _ => True) db')
    (hprop : db' .propIndex = db .propIndex)
    (hkeep : ∀ g n, HasNode rt.bin db g n → Indexed rt db g n → HasNode rt.bin db' g n) :
    Maintained rt db' := by
  have hmeta : ∀ g name, (db' .propIndex)[IndexManager.metaKey g name]? =
      (db .propIndex)[IndexManager.metaKey g name]? := fun g name => by rw [hprop]
  refine h.of_entries hw hmeta fun k hk => ?_
  rw [hprop] at hk
  rcases h.keys_cases hk with hdef | ⟨d, n, he, rfl⟩
  · exact .inl hdef
  · refine .inr ⟨d, n, ⟨(listed_congr hmeta).mpr he.listed, he.covers, ?_⟩, rfl⟩
    exact hkeep _ _ he.stored ⟨d, he.listed, rfl, he.covers, hk⟩

/-- The entries of stored nodes may be put, and any entry may be deleted. -/
theorem Maintained.of_indexes (h : Maintained rt db) (hother : ∀ c, c ≠ .propIndex → db' c = db c)
    (hmeta : ∀ g name, (db' .propIndex)[IndexManager.metaKey g name]? =
      (db .propIndex)[IndexManager.metaKey g name]?)
    (hkeys : ∀ k, (db' .propIndex)[k]? ≠ none → (db .propIndex)[k]? ≠ none ∨
      ∃ d n, IsEntry rt db d n ∧ k = ownKey rt d n) : Maintained rt db' := by
  have hw : WellIndexed rt.bin (fun _ => True) (fun _ => True) db' :=
    h.wellIndexed.congr fun c hc => hother c (by rintro rfl; simp at hc)
  have hentry : ∀ {d n}, IsEntry rt db d n → IsEntry rt db' d n := fun he =>
    ⟨(listed_congr hmeta).mpr he.listed, he.covers,
      (hasNode_congr (hother .nodes (by decide)) _ _).mpr he.stored⟩
  refine h.of_entries hw hmeta fun k hk => ?_
  have hcases : (∃ g name, k = IndexManager.metaKey g name) ∨
      ∃ d n, IsEntry rt db d n ∧ k = ownKey rt d n := by
    rcases hkeys k hk with hk | hnew
    · exact h.keys_cases hk
    · exact .inr hnew
  rcases hcases with hdef | ⟨d, n, he, rfl⟩
  · exact .inl hdef
  · exact .inr ⟨d, n, hentry he, rfl⟩

/-! ## Definitions -/

/-- The name is not that of another listed definition that has entries: no other name of the graph has
its hash, and a definition of this name is on the same properties, or has no entry. -/
def Vacant (rt : Runtime) (db : Db) (index : IndexDefinition) : Prop :=
  ∀ d, Listed rt db d → d.graphId = index.graphId → rt.hash d.name = rt.hash index.name →
    d.name = index.name ∧
      ((d.entityType = index.entityType ∧ d.propertyNames = index.propertyNames) ∨
        ∀ k, namedPrefix rt index.graphId index.name <+: k → (db .propIndex)[k]? = none)

theorem ownKey_congr {d d' : IndexDefinition} (hg : d.graphId = d'.graphId) (hname : d.name = d'.name)
    (hprops : d.propertyNames = d'.propertyNames) (n : Node) : ownKey rt d n = ownKey rt d' n := by
  simp only [ownKey, IndexManager.entryKey, IndexManager.entryPrefix, encodeProperties, hg, hname,
    hprops]

theorem covers_congr {d d' : IndexDefinition} (htype : d.entityType = d'.entityType)
    (hprops : d.propertyNames = d'.propertyNames) (n : Node) : covers d n = covers d' n := by
  rw [covers, covers, htype, hprops]

/-- **`CREATE INDEX`** on a name without entries of another definition. -/
theorem Maintained.createIndex (h : Maintained rt db) (hbin : rt.bin.indexDefinition.RoundTrips)
    {index : IndexDefinition} (hvacant : Vacant rt db index) :
    Maintained rt (exec (IndexManager.createIndex rt index) db) := by
  rcases createIndex_cases rt index db with ⟨_, -, hexec⟩ | ⟨value, hvalue, -, hexec⟩
  · rw [hexec]
    exact h
  have hother : ∀ c, c ≠ .propIndex → exec (IndexManager.createIndex rt index) db c = db c :=
    fun c hc => exec_of_onlyIn (createIndex_onlyIn rt index) hc db
  set db' := exec (IndexManager.createIndex rt index) db with hdb'
  have hget : ∀ k, (db' .propIndex)[k]? =
      if IndexManager.metaKey index.graphId index.name = k then some value
      else (db .propIndex)[k]? := by
    intro k
    rw [hexec, Db.getElem?_apply]
    simp only [WriteOp.cf, WriteOp.key, WriteOp.result, true_and]
  have hlisted : ∀ d, Listed rt db' d ↔
      d = index ∨ (Listed rt db d ∧ ¬ (d.graphId = index.graphId ∧ d.name = index.name)) := by
    intro d
    rw [Listed, hget]
    by_cases hsame : d.graphId = index.graphId ∧ d.name = index.name
    · rw [if_pos (metaKey_inj.mpr ⟨hsame.1.symm, hsame.2.symm⟩)]
      simp only [hsame, not_true_eq_false, and_self, and_false, or_false, Option.some.injEq,
        exists_eq_left']
      rw [hbin index value hvalue, Except.ok.injEq, eq_comm]
    · rw [if_neg fun hk => hsame ⟨(metaKey_inj.mp hk).1.symm, (metaKey_inj.mp hk).2.symm⟩]
      have hne : d ≠ index := by
        rintro rfl
        exact hsame ⟨rfl, rfl⟩
      simp [hsame, hne, Listed]
  constructor
  · exact h.wellIndexed.congr fun c hc => hother c (by rintro rfl; simp at hc)
  · intro k v hv
    rw [hget] at hv
    split at hv
    · next hk =>
      cases hv
      exact .inl ⟨index, hk.symm, hbin index _ hvalue⟩
    · rcases h.keys k v hv with hdef | ⟨d, n, he, rfl⟩
      · exact .inl hdef
      · have hstored : HasNode rt.bin db' d.graphId n :=
          (hasNode_congr (hother .nodes (by decide)) _ _).mpr he.stored
        by_cases hsame : d.graphId = index.graphId ∧ d.name = index.name
        · -- an entry of the definition that was replaced
          obtain ⟨-, ⟨htype, hprops⟩ | hnone⟩ := hvacant d he.listed hsame.1 (by rw [hsame.2])
          · refine .inr ⟨index, n, ⟨(hlisted index).mpr (.inl rfl), ?_, ?_⟩, ?_⟩
            · rw [← covers_congr htype hprops]
              exact he.covers
            · rw [← hsame.1]
              exact hstored
            · exact ownKey_congr hsame.1 hsame.2 hprops n
          · have hunder : namedPrefix rt index.graphId index.name <+: ownKey rt d n :=
              namedPrefix_ownKey.mpr ⟨hsame.1.symm, by rw [hsame.2]⟩
            rw [hnone _ hunder] at hv
            cases hv
        · exact .inr ⟨d, n, ⟨(hlisted d).mpr (.inr ⟨he.listed, hsame⟩), he.covers, hstored⟩, rfl⟩
  · intro d d' hd hd' hg hhash
    rcases (hlisted d).mp hd with rfl | ⟨hold, -⟩
    · rcases (hlisted d').mp hd' with rfl | ⟨hold', -⟩
      · rfl
      · exact (hvacant d' hold' hg.symm hhash.symm).1.symm
    · rcases (hlisted d').mp hd' with rfl | ⟨hold', -⟩
      · exact (hvacant d hold hg hhash).1
      · exact h.names d d' hold hold' hg hhash

/-- **`DROP INDEX`** takes the entries with the definition. -/
theorem Maintained.dropIndex (h : Maintained rt db) (g : GraphId) (name : String) :
    Maintained rt (exec (IndexManager.dropIndex rt g name) db) := by
  have hother : ∀ c, c ≠ .propIndex → exec (IndexManager.dropIndex rt g name) db c = db c :=
    fun c hc => exec_of_onlyIn (dropIndex_onlyIn rt g name) hc db
  have hget := @getElem?_dropIndex rt db
  set db' := exec (IndexManager.dropIndex rt g name) db with hdb'
  have hlisted : ∀ d, Listed rt db' d ↔ Listed rt db d ∧ ¬ (d.graphId = g ∧ d.name = name) := by
    intro d
    have hnot := not_namedPrefix_metaKey rt g d.graphId name d.name
    rw [Listed, hget]
    by_cases hsame : d.graphId = g ∧ d.name = name
    · simp [hsame]
    · simp [metaKey_inj, hsame, hnot, Listed]
  constructor
  · exact h.wellIndexed.congr fun c hc => hother c (by rintro rfl; simp at hc)
  · intro k v hv
    rw [hget] at hv
    split at hv
    · cases hv
    · next hk =>
      rcases h.keys k v hv with hdef | ⟨d, n, he, rfl⟩
      · exact .inl hdef
      · rw [not_or, namedPrefix_ownKey] at hk
        refine .inr ⟨d, n, ⟨(hlisted d).mpr ⟨he.listed, ?_⟩, he.covers, ?_⟩, rfl⟩
        · rintro ⟨hg, hname⟩
          exact hk.2 ⟨hg.symm, by rw [hname]⟩
        · exact (hasNode_congr (hother .nodes (by decide)) _ _).mpr he.stored
  · exact fun d d' hd hd' => h.names d d' ((hlisted d).mp hd).1 ((hlisted d').mp hd').1

/-- **`DROP GRAPH`** takes the definitions and the entries with the nodes. -/
theorem Maintained.deleteGraph (h : Maintained rt db) (g : GraphId) :
    Maintained rt (exec (StorageEngine.deleteGraph g) db) := by
  have hget : ∀ k, (exec (StorageEngine.deleteGraph g) db .propIndex)[k]? =
      if g.asBytes <+: k then none else (db .propIndex)[k]? :=
    fun k => deleteGraph_exec g db (by decide) k
  have hnodes := @hasNode_deleteGraph rt.bin db g
  have hw := deleteGraph_wellIndexed (g := g) h.wellIndexed
  have hmeta : ∀ d : IndexDefinition,
      g.asBytes <+: IndexManager.metaKey d.graphId d.name ↔ g = d.graphId := fun d => graph_prefix_iff
  set db' := exec (StorageEngine.deleteGraph g) db with hdb'
  have hlisted : ∀ d, Listed rt db' d ↔ Listed rt db d ∧ d.graphId ≠ g := by
    intro d
    rw [Listed, hget]
    by_cases hg : g = d.graphId
    · rw [if_pos ((hmeta d).mpr hg)]
      simp [hg]
    · rw [if_neg (mt (hmeta d).mp hg)]
      simp [Ne.symm hg, Listed]
  constructor
  · exact hw
  · intro k v hv
    rw [hget] at hv
    split at hv
    · cases hv
    · next hk =>
      rcases h.keys k v hv with hdef | ⟨d, n, he, rfl⟩
      · exact .inl hdef
      · have hg : d.graphId ≠ g := by
          rintro rfl
          apply hk
          simp only [ownKey, IndexManager.entryKey, IndexManager.entryPrefix, List.append_assoc]
          exact List.prefix_append _ _
        exact .inr ⟨d, n, ⟨(hlisted d).mpr ⟨he.listed, hg⟩, he.covers,
          (hnodes _ n).mpr ⟨he.stored, hg⟩⟩, rfl⟩
  · exact fun d d' hd hd' => h.names d d' ((hlisted d).mp hd).1 ((hlisted d').mp hd').1

/-! ## Nodes and edges -/

/-- A call that touches neither the nodes nor the indexes. -/
theorem Maintained.of_edges (h : Maintained rt db)
    (hw : WellIndexed rt.bin (fun _ => True) (fun _ => True) db') (hnodes : db' .nodes = db .nodes)
    (hprop : db' .propIndex = db .propIndex) : Maintained rt db' :=
  h.of_nodes hw hprop fun g n hn _ => (hasNode_congr hnodes g n).mpr hn

theorem Maintained.putEdge (h : Maintained rt db) (hbin : rt.bin.edge.RoundTrips) (edge : Edge) :
    Maintained rt (exec (StorageEngine.putEdge rt.bin edge) db) := by
  have hw := (@putEdge_keeps _ _ _ _ edge hbin trivial h.wellIndexed).exec
  rcases putEdge_cases rt.bin edge db with ⟨_, -, hexec⟩ | ⟨stale, value, -, -, -, hexec⟩
  · rw [hexec]
    exact h
  · refine h.of_edges hw ?_ ?_
    · rw [hexec]
      exact putEdgeBatch_other (.inl rfl)
    · rw [hexec]
      apply Db.write_of_forall_cf_ne
      intro op hop
      cases stale <;> simp [StorageEngine.putEdgeBatch, StorageEngine.dropEdgeEntries] at hop <;>
        grind [WriteOp.cf]

theorem deleteEdge_propIndex (i : EdgeId) :
    exec (StorageEngine.deleteEdge rt.bin g i) db .propIndex = db .propIndex := by
  rcases deleteEdge_cases rt.bin (g := g) i db with ⟨_, -, -, hexec⟩ | ⟨edge, -, -, hexec⟩
  · rw [hexec]
  · rw [hexec]
    apply Db.write_of_forall_cf_ne
    simp [StorageEngine.dropEdgeEntries, WriteOp.cf]

theorem deleteConnected_propIndex (seen : List EdgeId) (edges : List Edge) :
    exec (StorageEngine.deleteConnected rt.bin g seen edges) db .propIndex = db .propIndex := by
  induction edges generalizing seen db with
  | nil => rfl
  | cons edge edges ih =>
    by_cases hnew : edge.id ∈ seen
    · rw [StorageEngine.deleteConnected, if_pos hnew]
      exact ih seen
    · rcases deleteConnected_cons hnew edges db with ⟨_, -, -, hexec⟩ | ⟨-, hexec⟩
      · rw [hexec]
      · rw [hexec, ih, deleteEdge_propIndex]

theorem Maintained.deleteEdge (h : Maintained rt db) (g : GraphId) (i : EdgeId) :
    Maintained rt (exec (StorageEngine.deleteEdge rt.bin g i) db) :=
  h.of_nodes (deleteEdge_keeps h.wellIndexed).exec (deleteEdge_propIndex i) fun g' n hn _ =>
    (hasNode_deleteEdge i g' n).mpr hn

/-- A node without an entry may be written over. -/
theorem Maintained.putNode (h : Maintained rt db) (hbin : rt.bin.node.RoundTrips) {node : Node}
    (hfree : ∀ n, HasNode rt.bin db node.graphId n → n.id = node.id →
      ¬ Indexed rt db node.graphId n) :
    Maintained rt (exec (StorageEngine.putNode rt.bin node) db) := by
  have hw := (@putNode_keeps _ _ _ _ node hbin trivial h.wellIndexed).exec
  rcases putNode_cases rt.bin node db with ⟨_, -, hexec⟩ | ⟨stale, value, -, -, hok, hexec⟩
  · rw [hexec]
    exact h
  · refine h.of_nodes hw ?_ fun g n hn hindexed => ?_
    · rw [hexec]
      exact putNodeBatch_other db node stale value (by decide) (by decide)
    · rw [hasNode_putNode hbin h.wellIndexed trivial hok]
      refine .inr ⟨hn, ?_⟩
      rintro ⟨rfl, hid⟩
      exact hfree n hn hid hindexed

/-- A node without an entry may be deleted. -/
theorem Maintained.deleteNode (h : Maintained rt db) {i : NodeId}
    (hfree : ∀ n, HasNode rt.bin db g n → n.id = i → ¬ Indexed rt db g n) :
    Maintained rt (exec (StorageEngine.deleteNode rt.bin g i) db) := by
  refine h.of_nodes (deleteNode_keeps h.wellIndexed).exec ?_ fun g' n hn hindexed => ?_
  · rcases deleteNode_cases (g := g) h.wellIndexed i with
      ⟨_, -, -, hexec⟩ | ⟨node, edges, -, -, -, -, hexec⟩
    · rw [hexec]
    · rw [hexec, deleteNodeBatch_other (by decide) (by decide), deleteConnected_propIndex]
  · rw [hasNode_deleteNode h.wellIndexed]
    refine ⟨hn, ?_⟩
    rintro ⟨rfl, hid⟩
    exact hfree n hn hid hindexed

end Maintained

/-! ## The hooks -/

section Hooks

variable {env : Env} {graphId : GraphId} {db : Db} {node : Node}

/-- The store after an index write for each of the definitions that cover the node. -/
def upkept (write : IndexDefinition → Node → StorageM Unit) (node : Node)
    (indexes : List IndexDefinition) (db : Db) : Db :=
  indexes.foldl (fun db index => if covers index node then exec (write index node) db else db) db

theorem run_maintain (write : IndexDefinition → Node → StorageM Unit) (node : Node)
    (indexes : List IndexDefinition) (ω : Stream' Draw) (db : Db) :
    (maintain write node indexes).run ω db = ⟨.ok (), upkept write node indexes db, ω, []⟩ := by
  induction indexes generalizing db with
  | nil => rfl
  | cons index indexes ih =>
    rw [maintain, upkept, List.foldl_cons]
    split
    · rw [Process.run_bind]
      exact ih _
    · exact ih _

theorem run_maintainIndexes (write : IndexDefinition → Node → StorageM Unit)
    {defs : List IndexDefinition} (hdefs : IndexManager.listIndexes env.rt db graphId = .ok defs)
    (ω : Stream' Draw) : (maintainIndexes env graphId write node).run ω db =
      ⟨.ok (), upkept write node defs db, ω, []⟩ := by
  rw [maintainIndexes, Process.run_bind]
  show Process.Ended.andThen ⟨.ok (IndexManager.listIndexes env.rt db graphId), db, ω, []⟩ _ = _
  rw [hdefs, Process.Ended.andThen]
  dsimp only
  rw [run_maintain]
  rfl

/-- The entry of a stored node is put, or refused. -/
theorem Maintained.indexNode (h : Maintained env.rt db) {d : IndexDefinition}
    (he : IsEntry env.rt db d node) :
    Maintained env.rt (exec (IndexManager.indexNode env.rt d node) db) ∧
      (∀ d', Listed env.rt (exec (IndexManager.indexNode env.rt d node) db) d' ↔ Listed env.rt db d') ∧
      exec (IndexManager.indexNode env.rt d node) db .nodes = db .nodes := by
  rcases indexNode_cases env.rt d node db with ⟨-, -, -, hexec⟩ | ⟨-, -, hexec⟩
  · rw [hexec]
    exact ⟨h, fun _ => Iff.rfl, rfl⟩
  have hother : ∀ c, c ≠ .propIndex → exec (IndexManager.indexNode env.rt d node) db c = db c :=
    fun c hc => exec_of_onlyIn (indexNode_onlyIn env.rt d node) hc db
  have hget : ∀ k, (exec (IndexManager.indexNode env.rt d node) db .propIndex)[k]? =
      if ownKey env.rt d node = k then some [] else (db .propIndex)[k]? := by
    intro k
    rw [hexec, Db.getElem?_apply]
    simp only [WriteOp.cf, WriteOp.key, WriteOp.result, true_and]
  have hmeta : ∀ g name, (exec (IndexManager.indexNode env.rt d node) db
      .propIndex)[IndexManager.metaKey g name]? = (db .propIndex)[IndexManager.metaKey g name]? := by
    intro g name
    rw [hget, if_neg (ownKey_ne_metaKey d node g name)]
  refine ⟨h.of_indexes hother hmeta fun k hk => ?_, fun _ => listed_congr hmeta,
    hother .nodes (by decide)⟩
  rw [hget] at hk
  split at hk
  · next hkey => exact .inr ⟨d, node, he, hkey.symm⟩
  · exact .inl hk

/-- Entries are put for a stored node. -/
theorem Maintained.upkept_indexNode {defs : List IndexDefinition} (h : Maintained env.rt db)
    (hdefs : ∀ d ∈ defs, Listed env.rt db d ∧ d.graphId = graphId)
    (hnode : HasNode env.rt.bin db graphId node) :
    Maintained env.rt (upkept (IndexManager.indexNode env.rt) node defs db) := by
  induction defs generalizing db with
  | nil => exact h
  | cons d defs ih =>
    obtain ⟨⟨hlisted, hg⟩, hrest⟩ := List.forall_mem_cons.mp hdefs
    rw [upkept, List.foldl_cons]
    split
    · next hcovers =>
      obtain ⟨hput, hsame, hnodes⟩ := h.indexNode ⟨hlisted, hcovers, by rwa [hg]⟩
      exact ih hput (fun d' hd' => ⟨(hsame d').mpr (hrest d' hd').1, (hrest d' hd').2⟩)
        ((hasNode_congr hnodes _ _).mpr hnode)
    · exact ih h hrest hnode

theorem Maintained.indexNodeOnWrite (h : Maintained env.rt db)
    (hnode : HasNode env.rt.bin db graphId node) (ω : Stream' Draw) :
    Maintained env.rt ((indexNodeOnWrite env graphId node).run ω db).state := by
  obtain ⟨defs, hdefs, hmem⟩ := h.exists_listIndexes graphId
  rw [Exec.indexNodeOnWrite, run_maintainIndexes _ hdefs]
  exact h.upkept_indexNode (fun d hd => (hmem d).mp hd) hnode

/-- The entries of a node are deleted one after the other, until there is none left. -/
theorem Maintained.upkept_unindexNode {defs : List IndexDefinition} (h : Maintained env.rt db)
    (hnode : HasNode env.rt.bin db graphId node)
    (hdone : ∀ d, Listed env.rt db d → d.graphId = graphId → covers d node →
      d ∈ defs ∨ (db .propIndex)[ownKey env.rt d node]? = none) :
    Maintained env.rt (upkept (IndexManager.unindexNode env.rt) node defs db) ∧
      HasNode env.rt.bin (upkept (IndexManager.unindexNode env.rt) node defs db) graphId node ∧
      ¬ Indexed env.rt (upkept (IndexManager.unindexNode env.rt) node defs db) graphId node := by
  induction defs generalizing db with
  | nil =>
    refine ⟨h, hnode, ?_⟩
    rintro ⟨d, hlisted, hg, hcovers, hkey⟩
    rcases hdone d hlisted hg hcovers with hd | hnone
    · cases hd
    · exact hkey hnone
  | cons d defs ih =>
    rw [upkept, List.foldl_cons]
    split
    · have hother : ∀ c, c ≠ .propIndex → exec (IndexManager.unindexNode env.rt d node) db c = db c :=
        fun c hc => exec_of_onlyIn (unindexNode_onlyIn env.rt d node) hc db
      have hget : ∀ k, (exec (IndexManager.unindexNode env.rt d node) db .propIndex)[k]? =
          if ownKey env.rt d node = k then none else (db .propIndex)[k]? := by
        intro k
        have hexec : exec (IndexManager.unindexNode env.rt d node) db =
            db.apply (.delete .propIndex (ownKey env.rt d node)) := rfl
        rw [hexec, Db.getElem?_apply]
        simp only [WriteOp.cf, WriteOp.key, WriteOp.result, true_and]
      have hmeta : ∀ g name, (exec (IndexManager.unindexNode env.rt d node) db
          .propIndex)[IndexManager.metaKey g name]? =
            (db .propIndex)[IndexManager.metaKey g name]? := by
        intro g name
        rw [hget, if_neg (ownKey_ne_metaKey d node g name)]
      apply ih
      · refine h.of_indexes hother hmeta fun k hk => .inl ?_
        rw [hget] at hk
        split at hk
        · exact absurd rfl hk
        · exact hk
      · exact (hasNode_congr (hother .nodes (by decide)) _ _).mpr hnode
      · intro d' hlisted hg hcovers
        rw [hget]
        rcases hdone d' ((listed_congr hmeta).mp hlisted) hg hcovers with hd' | hnone
        · rcases List.mem_cons.mp hd' with rfl | hd'
          · exact .inr (if_pos rfl)
          · exact .inl hd'
        · rw [hnone, ite_self]
          exact .inr rfl
    · next hcovers =>
      refine ih h hnode fun d' hlisted hg hcovers' => ?_
      rcases hdone d' hlisted hg hcovers' with hd' | hnone
      · rcases List.mem_cons.mp hd' with rfl | hd'
        · exact absurd hcovers' hcovers
        · exact .inl hd'
      · exact .inr hnone

theorem Maintained.unindexNodeOnDelete (h : Maintained env.rt db)
    (hnode : HasNode env.rt.bin db graphId node) (ω : Stream' Draw) :
    let left := ((unindexNodeOnDelete env graphId node).run ω db).state
    Maintained env.rt left ∧ HasNode env.rt.bin left graphId node ∧
      ¬ Indexed env.rt left graphId node := by
  obtain ⟨defs, hdefs, hmem⟩ := h.exists_listIndexes graphId
  rw [Exec.unindexNodeOnDelete, run_maintainIndexes _ hdefs]
  exact h.upkept_unindexNode hnode fun d hlisted hg _ => .inl ((hmem d).mpr ⟨hlisted, hg⟩)

end Hooks

/-! ## The write operators -/

section Operators

open Process

variable {env : Env} {graphId : GraphId} {db : Db}

/-- After a successful write the node is stored, and can be put into the indexes. -/
theorem Maintained.written (h : Maintained env.rt db) (hbin : env.rt.bin.node.RoundTrips) (node : Node)
    (hgraph : node.graphId = graphId)
    (hfree : ∀ n, HasNode env.rt.bin db graphId n → n.id = node.id → ¬ Indexed env.rt db graphId n) :
    Maintained env.rt (exec (StorageEngine.putNode env.rt.bin node) db) ∧
      ((StorageEngine.putNode env.rt.bin node db).result = .ok () →
        HasNode env.rt.bin (exec (StorageEngine.putNode env.rt.bin node) db) graphId node) := by
  subst hgraph
  exact ⟨h.putNode hbin hfree, fun hok =>
    (hasNode_putNode hbin h.wellIndexed trivial hok).mpr (.inl ⟨rfl, rfl⟩)⟩

/-- `INSERT` of a node under an identifier that no stored node has. -/
theorem Maintained.execCreateNode (h : Maintained env.rt db) (hbin : env.rt.bin.node.RoundTrips)
    {ω : Stream' Draw} (hfresh : ∀ n, HasNode env.rt.bin db graphId n → n.id ≠ ⟨ω.head.uuid⟩)
    (labels : List String) (properties : List (String × Expression)) :
    Maintained env.rt ((execCreateNode env graphId labels properties).run ω db).state := by
  refine state_bind (I := Maintained env.rt) h fun draw hdraw => ?_
  cases hdraw
  refine state_bind (I := Maintained env.rt) h fun props _ => ?_
  generalize hnode : (Node.mk ⟨ω.head.uuid⟩ graphId
    (Std.ExtTreeSet.ofList (labels.map Label.mk) _) props) = node
  obtain ⟨hput, hstored⟩ := h.written hbin node (by rw [← hnode]) fun n hn hid => by
    rw [← hnode] at hid
    exact absurd hid (hfresh n hn)
  refine state_bind (I := Maintained env.rt) hput fun _ hok => ?_
  refine state_bind (I := Maintained env.rt) hput fun _ _ => ?_
  have hindexed := hput.indexNodeOnWrite (hstored (result_call_eq_ok.mp hok)) ω.tail
  exact state_bind (I := Maintained env.rt) hindexed fun _ _ => hindexed

variable (env graphId)

/-- `SET` takes the node out of the indexes, writes it, and puts it back in. -/
theorem keeps_setNodeProperty (hbin : env.rt.bin.node.RoundTrips) (id property : String) (val : Value) :
    (setNodeProperty env graphId id property val).Keeps (Maintained env.rt) := by
  refine keeps_bind ((reads_parseId env _ _).keeps _) fun uuid ω db h => ?_
  refine state_bind (I := Maintained env.rt) h fun node hget => ?_
  obtain ⟨hnode, -⟩ := h.wellIndexed.hasNode_of_getNode (result_query_eq_ok.mp hget)
  obtain ⟨hgraph, -⟩ := h.wellIndexed.node_id (getNode_eq_ok.mp hnode)
  obtain ⟨hout, hstill, hfree⟩ := h.unindexNodeOnDelete hnode ω
  refine state_bind (I := Maintained env.rt) hout fun _ _ => ?_
  obtain ⟨hput, hstored⟩ := hout.written hbin
    { node with properties := node.properties.insert property val } hgraph fun n hn hid => by
      rwa [hn.eq_of_id hstill hid]
  refine state_bind (I := Maintained env.rt) hput fun _ hok => ?_
  have hindexed := hput.indexNodeOnWrite (hstored (result_call_eq_ok.mp hok))
  exact state_bind (I := Maintained env.rt) (hindexed _) fun _ _ => hindexed _

/-- `DELETE` of a node takes it out of the indexes first. -/
theorem keeps_deleteOneNode (id : String) :
    (deleteOneNode env graphId id).Keeps (Maintained env.rt) := by
  refine keeps_bind ((reads_parseId env _ _).keeps _) fun uuid ω db h => ?_
  have hcount : (countIncidentEdges env graphId ⟨uuid⟩).Reads :=
    reads_bind (reads_query _ _) fun _ => reads_bind (reads_query _ _) fun _ => reads_pure _
  -- what is left to do when no entry of the node is in the way
  have hrest : ∀ {ω : Stream' Draw} {db : Db}, Maintained env.rt db →
      (∀ n, HasNode env.rt.bin db graphId n → n.id = ⟨uuid⟩ → ¬ Indexed env.rt db graphId n) →
      Maintained env.rt ((countIncidentEdges env graphId ⟨uuid⟩ >>= fun incident =>
        call (StorageEngine.deleteNode env.rt.bin graphId ⟨uuid⟩) asInternal >>= fun _ =>
          (.report ⟨0, 1, 0, incident, 0⟩ : ExecM Unit)).run ω db).state := by
    intro ω db h hfree
    refine state_bind (I := Maintained env.rt) (hcount.keeps _ ω db h) fun incident _ => ?_
    rw [hcount.state_eq]
    have hdelete := h.deleteNode hfree
    exact state_bind (I := Maintained env.rt) hdelete fun _ _ => hdelete
  refine state_bind (I := Maintained env.rt) h fun found hfound => ?_
  have hget : StorageEngine.getNode env.rt.bin db graphId ⟨uuid⟩ = found := by
    cases hfound
    rfl
  cases found with
  | error e =>
    refine hrest h fun n hn hid => ?_
    rw [HasNode, hid] at hn
    cases hget.symm.trans hn
  | ok node =>
    obtain ⟨hnode, hid⟩ := h.wellIndexed.hasNode_of_getNode hget
    obtain ⟨hout, hstill, hfree⟩ := h.unindexNodeOnDelete hnode ω
    refine state_bind (I := Maintained env.rt) hout fun _ _ => hrest hout fun n hn hn' => ?_
    rwa [hn.eq_of_id hstill (hn'.trans hid.symm)]

variable {env graphId} in
/-- `CREATE INDEX` puts entries for the nodes that it has read. -/
theorem Maintained.backfill {index : IndexDefinition} (hindex : index.entityType = .node)
    (hg : index.graphId = graphId) {nodes : List Node} (h : Maintained env.rt db)
    (hlisted : Listed env.rt db index) (hnodes : ∀ n ∈ nodes, HasNode env.rt.bin db graphId n)
    (ω : Stream' Draw) : Maintained env.rt ((backfill env index nodes).run ω db).state := by
  induction nodes generalizing db with
  | nil => exact h
  | cons node nodes ih =>
    obtain ⟨hnode, hrest⟩ := List.forall_mem_cons.mp hnodes
    rw [Exec.backfill]
    split
    · next hany =>
      have hcovers : covers index node := by simp [covers, hindex, hany]
      obtain ⟨hput, hsame, hframe⟩ := h.indexNode ⟨hlisted, hcovers, by rwa [hg]⟩
      refine state_bind (I := Maintained env.rt) hput fun _ _ => ?_
      exact ih hput ((hsame index).mpr hlisted) fun n hn => (hasNode_congr hframe _ _).mpr (hrest n hn)
    · exact ih h hlisted hrest

variable {env graphId} in
theorem Maintained.execCreateIndex (h : Maintained env.rt db)
    (hbin : env.rt.bin.indexDefinition.RoundTrips) {name : String} {unique : Bool}
    {entityType : String} {label : Option String} {propertyNames : List String}
    (hvacant : Vacant env.rt db ⟨name, graphId, if entityType = "edge" then .edge else .node,
      propertyNames, unique⟩) (ω : Stream' Draw) :
    Maintained env.rt
      ((execCreateIndex env graphId name unique entityType label propertyNames).run ω db).state := by
  rw [Exec.execCreateIndex]
  extract_lets finish
  set index : IndexDefinition :=
    ⟨name, graphId, if entityType = "edge" then .edge else .node, propertyNames, unique⟩
  have hcreated : Maintained env.rt (exec (IndexManager.createIndex env.rt index) db) :=
    h.createIndex hbin hvacant
  refine state_bind (I := Maintained env.rt) hcreated fun _ hok => ?_
  have hlisted : Listed env.rt (exec (IndexManager.createIndex env.rt index) db) index := by
    rcases createIndex_cases env.rt index db with ⟨e, herror, -⟩ | ⟨value, hvalue, -, hexec⟩
    · rw [result_call_eq_ok.mp hok] at herror
      cases herror
    · refine ⟨value, ?_, hbin index value hvalue⟩
      rw [hexec, Db.getElem?_apply]
      simp [WriteOp.cf, WriteOp.key, WriteOp.result]
  split
  · next htype =>
    refine state_bind (I := Maintained env.rt) hcreated fun nodes hnodes => ?_
    have hstored : ∀ n ∈ nodes,
        HasNode env.rt.bin (exec (IndexManager.createIndex env.rt index) db) graphId n := by
      intro n hn
      have hread := result_query_eq_ok.mp hnodes
      cases label with
      | some l => exact hcreated.wellIndexed.hasNode_of_mem_scan hread hn
      | none =>
        obtain ⟨ns, hns, -, hmem⟩ := hcreated.wellIndexed.exists_scanNodes graphId
        cases hns.symm.trans hread
        exact (hmem n).mp hn
    have hfilled := hcreated.backfill htype rfl hlisted hstored ω
    exact state_bind (I := Maintained env.rt) hfilled fun _ _ => hfilled
  · exact hcreated

variable {env} in
/-- The graphs themselves have nothing to do with the indexes. -/
theorem Maintained.putGraphMeta (m : GraphMeta) {db : Db} (h : Maintained env.rt db) :
    Maintained env.rt (exec (StorageEngine.putGraphMeta env.rt.bin m) db) := by
  have hother : ∀ c, c ≠ .graphMeta → exec (StorageEngine.putGraphMeta env.rt.bin m) db c = db c := by
    intro c hc
    refine exec_of_onlyIn (emits_bind (emits_read _) fun value => emits_write ?_) hc db
    simp [OnlyIn, WriteOp.cf]
  refine h.of_edges (h.wellIndexed.congr fun c hc => hother c ?_) (hother .nodes (by decide))
    (hother .propIndex (by decide))
  rintro rfl
  simp at hc

end Operators

/-! ## Runs of programs -/

/-- What the write operators rely on: `CREATE INDEX` does not replace a definition that has entries by
one on other properties, and `INSERT` draws an identifier that no stored node of the graph has. -/
def Careful (env : Env) (graphId : GraphId) : WriteCondition
  | .createIndex name unique entityType _ propertyNames, _, _, db =>
    Vacant env.rt db ⟨name, graphId, if entityType = "edge" then .edge else .node, propertyNames, unique⟩
  | .createNode _ _, _, ω, db => ∀ n, HasNode env.rt.bin db graphId n → n.id ≠ ⟨ω.head.uuid⟩
  | _, _, _, _ => True

/-- Every entry under the name of a node index is that of a stored node, under the values that the node
has now. -/
def NoStaleEntries (rt : Runtime) (db : Db) : Prop :=
  ∀ g, ∃ defs, IndexManager.listIndexes rt db g = .ok defs ∧
    ∀ d ∈ defs, d.entityType = .node → ∀ k, (db .propIndex)[k]? ≠ none → namedPrefix rt g d.name <+: k →
      ∃ n, HasNode rt.bin db g n ∧ ownKey rt d n = k

theorem Maintained.noStaleEntries {rt : Runtime} {db : Db} (h : Maintained rt db) :
    NoStaleEntries rt db := by
  intro g
  obtain ⟨defs, hdefs, hmem⟩ := h.exists_listIndexes g
  refine ⟨defs, hdefs, fun d hd _ k hk hp => ?_⟩
  obtain ⟨hlisted, hg⟩ := (hmem d).mp hd
  rcases h.keys_cases hk with ⟨g', name, rfl⟩ | ⟨d', n, he, rfl⟩
  · exact absurd hp (not_namedPrefix_metaKey rt g g' d.name name)
  · obtain ⟨hg', hhash⟩ := namedPrefix_ownKey.mp hp
    have hgraph : d.graphId = d'.graphId := hg.trans hg'
    have hname := h.names d d' hlisted he.listed hgraph hhash
    obtain rfl := hlisted.eq he.listed hgraph hname
    exact ⟨n, hg ▸ he.stored, rfl⟩

/-- What a careful write operator keeps. -/
theorem Maintained.writeOf {env : Env} (hnode : env.rt.bin.node.RoundTrips)
    (hedge : env.rt.bin.edge.RoundTrips) (hdef : env.rt.bin.indexDefinition.RoundTrips)
    {graphId : GraphId} {plan : LogicalPlan} {rs : ResultSet} {ω : Stream' Draw} {db : Db}
    (hcareful : Careful env graphId plan rs ω db) (h : Maintained env.rt db) :
    Maintained env.rt ((writeOf env graphId plan rs).run ω db).state := by
  cases plan with
  | createNode labels properties => exact h.execCreateNode hnode hcareful labels properties
  | createEdgeFromMatch input sourceVar targetVar label properties =>
    exact Process.keeps_bind (keeps_createEdgeRows (fun _ _ h => h.putEdge hedge _) _ _ _ _ _)
      (fun _ => Process.keeps_pure _ _) ω db h
  | deleteNode input targets detach =>
    exact Process.keeps_bind (keeps_deleteEdges (fun _ _ h => h.deleteEdge graphId _) _ _) (fun _ =>
      Process.keeps_bind (keeps_deleteNodes (keeps_deleteOneNode env graphId) _ _) fun _ =>
        Process.keeps_pure _ _) ω db h
  | setProperty input target property value =>
    exact Process.keeps_bind (keeps_setRecords (keeps_setNodeProperty env graphId hnode)
      (keeps_setEdgeProperty fun _ _ h => h.putEdge hedge _) _ _ _ _)
      (fun _ => Process.keeps_pure _ _) ω db h
  | createIndex name unique entityType label propertyNames => exact h.execCreateIndex hdef hcareful ω
  | dropIndex name => exact keeps_execDropIndex (fun g name _ h => h.dropIndex g name) name ω db h
  | createGraph name ifNotExists =>
    exact keeps_execCreateGraph (fun m _ h => h.putGraphMeta m) name ifNotExists ω db h
  | dropGraph name ifExists => exact keeps_execDropGraph (fun _ _ h => h.deleteGraph _) name ifExists ω db h
  | _ => exact h

/-- A careful run leaves a maintained store. -/
theorem run_maintained {env : Env} (hnode : env.rt.bin.node.RoundTrips)
    (hedge : env.rt.bin.edge.RoundTrips) (hdef : env.rt.bin.indexDefinition.RoundTrips)
    {requests : List Request}
    (h : Run.Each (Request.exec env) (Request.EachWrite env (Careful env)) Db.empty requests) :
    Maintained env.rt (Run.exec (Request.exec env) Db.empty requests) :=
  Request.run_invariant (I := Maintained env.rt) (p := Careful env)
    (fun _ _ _ _ _ hcareful hdb => hdb.writeOf hnode hedge hdef hcareful) h maintained_empty

/-- **Entries never go stale** in a run of programs none of which redefines an index that has
entries. -/
theorem run_noStaleEntries {env : Env} (hnode : env.rt.bin.node.RoundTrips)
    (hedge : env.rt.bin.edge.RoundTrips) (hdef : env.rt.bin.indexDefinition.RoundTrips)
    {requests : List Request}
    (h : Run.Each (Request.exec env) (Request.EachWrite env (Careful env)) Db.empty requests) :
    NoStaleEntries env.rt (Run.exec (Request.exec env) Db.empty requests) :=
  (run_maintained hnode hedge hdef h).noStaleEntries

/-! ## A redefined index -/

/-- A person with the property `p`. -/
def withP : Node :=
  { person with properties := Std.ExtTreeMap.ofList [("p", .integer 1)] _ }

/-- An index of the same name on `q`. -/
def onQ : IndexDefinition := { byP with propertyNames := ["q"] }

/-- `bincode` on the entities of the runs below. -/
def indexBincode : Bincode := .table sampleRuntime.formats [withP] [] [byP, onQ]

/-- `CREATE INDEX i ON (property)`. -/
def createIndexOn (property : String) : Request :=
  ⟨sampleGraph, ⟨[.createIndex ⟨"i", false, "node", none, [property]⟩]⟩, sampleDraws⟩

/-- `INSERT (:Person {p: 1})`. -/
def insertWithP : Request :=
  ⟨sampleGraph, ⟨[.insert [⟨[.node ⟨none, ["Person"], [("p", .literal (.integer 1))]⟩]⟩]]⟩,
    sampleDraws⟩

/-- `CREATE INDEX` and then `INSERT`. -/
def indexedInsert : List Request := [createIndexOn "p", insertWithP]

theorem indexBincode_roundTrips : indexBincode.node.RoundTrips ∧ indexBincode.edge.RoundTrips ∧
    indexBincode.indexDefinition.RoundTrips := by
  refine ⟨Codec.ofTable_roundTrips (by decide), ?_,
    Codec.ofTable_roundTrips (by decide)⟩
  intro a b hab
  cases hab

theorem careful_indexedInsert : Run.Each (Request.exec (sampleEnv indexBincode))
    (Request.EachWrite (sampleEnv indexBincode) (Careful (sampleEnv indexBincode))) Db.empty
      indexedInsert := by
  refine ⟨?_, ?_, trivial⟩
  · intro plan hplan
    cases hplan
    rintro d ⟨v, hv, -⟩
    simp [Db.empty] at hv
  · intro plan hplan
    cases hplan
    intro n hn hid
    have hnone : (Request.exec (sampleEnv indexBincode) Db.empty (createIndexOn "p") .nodes) = ∅ := by
      decide
    rw [HasNode, StorageEngine.getNode, hnone] at hn
    simp at hn

theorem run_noStaleEntries_indexedInsert :
    NoStaleEntries (sampleEnv indexBincode).rt
      (Run.exec (Request.exec (sampleEnv indexBincode)) Db.empty indexedInsert) := by
  obtain ⟨hnode, hedge, hdef⟩ := indexBincode_roundTrips
  exact @run_noStaleEntries (sampleEnv indexBincode) hnode hedge hdef _ careful_indexedInsert

/-- `CREATE INDEX i ON (p)`, `INSERT (:Person {p: 1})`, `CREATE INDEX i ON (q)`. -/
def redefined : Db := Run.exec (Request.exec (sampleEnv indexBincode)) Db.empty
  [createIndexOn "p", insertWithP, createIndexOn "q"]

/-- Redefining an index leaves the entry of a node under the old property. -/
theorem not_noStaleEntries_redefined : ¬ NoStaleEntries (sampleEnv indexBincode).rt redefined := by
  intro h
  obtain ⟨defs, hdefs, hfresh⟩ := h sampleGraph
  have hlist : IndexManager.listIndexes (sampleEnv indexBincode).rt redefined sampleGraph =
      .ok [onQ] := by
    decide
  cases hlist.symm.trans hdefs
  obtain ⟨n, hn, hkey⟩ := hfresh onQ List.mem_cons_self rfl
    (ownKey (sampleEnv indexBincode).rt byP withP) (by decide +kernel) (by decide +kernel)
  have hid : n.id = withP.id := id_eq_of_ownKey_eq hkey
  have hstored : StorageEngine.getNode indexBincode redefined sampleGraph withP.id = .ok withP := by
    decide
  rw [HasNode, hid] at hn
  cases hstored.symm.trans hn
  revert hkey
  decide

end Synaptica.Exec
