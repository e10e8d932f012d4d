import Synaptica.Exec.IndexUpkeep

/-!
# What a statement does to the graphs

The statements that write a graph change the stored nodes and edges, and what is derived from them; the
index definitions, the graphs themselves and the other column families stay. `Gains` is the effect of a
statement that only adds: the new nodes and edges have identifiers of their own, and everything that was
stored is stored still.
-/

namespace Synaptica.Exec

open Gql Storage

/-! ## What stays -/

/-- The index definitions, the graphs and everything outside them are as before. -/
structure SameCatalog (rt : Runtime) (db db' : Db) : Prop where
  others : ∀ c, c ∉ StorageEngine.dataCfs → db' c = db c
  definitions : ∀ g name, (db' .propIndex)[IndexManager.metaKey g name]? =
    (db .propIndex)[IndexManager.metaKey g name]?

namespace SameCatalog

variable {rt : Runtime} {db db' db'' : Db}

theorem refl (db : Db) : SameCatalog rt db db := ⟨fun _ _ => rfl, fun _ _ => rfl⟩

theorem trans (h : SameCatalog rt db db') (h' : SameCatalog rt db' db'') : SameCatalog rt db db'' :=
  ⟨fun c hc => (h'.others c hc).trans (h.others c hc),
    fun g name => (h'.definitions g name).trans (h.definitions g name)⟩

theorem listed_iff (h : SameCatalog rt db db') (d : IndexDefinition) : Listed rt db' d ↔ Listed rt db d :=
  listed_congr h.definitions

/-- A call on the column families of nodes and edges. -/
theorem of_onlyGraph {α : Type} {m : StorageM α}
    (h : Journaled.Emits (fun batch : WriteBatch =>
      ∀ op ∈ batch, op.cf ∈ StorageEngine.dataCfs ∧ op.cf ≠ .propIndex) m) (db : Db) :
    SameCatalog rt db (Journaled.exec m db) where
  others c hc := by
    refine exec_of_emits (fun db batch hbatch op hop heq => hc ?_) db
    rw [← heq]
    exact (h db batch hbatch op hop).1
  definitions g name := by
    have hsame : Journaled.exec m db .propIndex = db .propIndex :=
      exec_of_emits (fun db batch hbatch op hop => (h db batch hbatch op hop).2) db
    rw [hsame]

end SameCatalog

section Calls

variable (rt : Runtime)

theorem emits_deleteEdge (g : GraphId) (i : EdgeId) : Journaled.Emits (fun batch : WriteBatch =>
    ∀ op ∈ batch, op.cf ∈ StorageEngine.dataCfs ∧ op.cf ≠ .propIndex)
      (StorageEngine.deleteEdge rt.bin g i) := by
  refine Journaled.emits_bind (Journaled.emits_read _) fun edge => Journaled.emits_write ?_
  simp [StorageEngine.dropEdgeEntries, WriteOp.cf, StorageEngine.dataCfs]

theorem emits_deleteConnected (g : GraphId) (seen : List EdgeId) (edges : List Edge) :
    Journaled.Emits (fun batch : WriteBatch =>
      ∀ op ∈ batch, op.cf ∈ StorageEngine.dataCfs ∧ op.cf ≠ .propIndex)
        (StorageEngine.deleteConnected rt.bin g seen edges) := by
  induction edges generalizing seen with
  | nil => exact Journaled.emits_pure _
  | cons edge edges ih =>
    rw [StorageEngine.deleteConnected]
    split
    · exact ih seen
    · exact Journaled.emits_bind (emits_deleteEdge rt g _) fun _ => ih _

/-- The calls on nodes, edges and index entries leave the catalog alone. -/
theorem graphCalls_sameCatalog (db₀ : Db) : GraphCallsKeep rt (SameCatalog rt db₀) where
  putNode node db h := by
    refine h.trans (.of_onlyGraph (Journaled.emits_bind (Journaled.emits_read _) fun stale =>
      Journaled.emits_bind (Journaled.emits_read _) fun value => Journaled.emits_write ?_) db)
    simp only [StorageEngine.putNodeBatch, List.mem_append, List.mem_cons, List.mem_map]
    rintro op (⟨l, -, rfl⟩ | rfl | ⟨l, -, rfl⟩)
    all_goals simp [WriteOp.cf, StorageEngine.dataCfs]
  putEdge edge db h := by
    refine h.trans (.of_onlyGraph (Journaled.emits_bind (Journaled.emits_read _) fun stale =>
      Journaled.emits_bind (Journaled.emits_read _) fun value => Journaled.emits_write ?_) db)
    cases stale <;>
      simp [StorageEngine.putEdgeBatch, StorageEngine.dropEdgeEntries, WriteOp.cf, StorageEngine.dataCfs]
  deleteNode g i db h := by
    refine h.trans (.of_onlyGraph (Journaled.emits_bind (Journaled.emits_read _) fun node =>
      Journaled.emits_bind (Journaled.emits_read _) fun outgoing =>
      Journaled.emits_bind (Journaled.emits_read _) fun incoming =>
      Journaled.emits_bind (emits_deleteConnected rt g _ _) fun _ => Journaled.emits_write ?_) db)
    simp only [StorageEngine.deleteNodeBatch, List.mem_cons, List.mem_map]
    rintro op (rfl | ⟨l, -, rfl⟩)
    all_goals simp [WriteOp.cf, StorageEngine.dataCfs]
  deleteEdge g i db h := h.trans (.of_onlyGraph (emits_deleteEdge rt g i) db)
  indexNode index node db h := by
    refine h.trans ⟨fun c hc => exec_of_onlyIn (indexNode_onlyIn rt index node) ?_ db, fun g name => ?_⟩
    · rintro rfl
      simp [StorageEngine.dataCfs] at hc
    · rcases indexNode_cases rt index node db with ⟨-, -, -, hexec⟩ | ⟨-, -, hexec⟩
      · rw [hexec]
      · rw [hexec, Db.getElem?_apply, if_neg]
        rintro ⟨-, hkey⟩
        exact ownKey_ne_metaKey index node g name hkey
  unindexNode index node db h := by
    refine h.trans ⟨fun c hc => exec_of_onlyIn (unindexNode_onlyIn rt index node) ?_ db, fun g name => ?_⟩
    · rintro rfl
      simp [StorageEngine.dataCfs] at hc
    · have hexec : Journaled.exec (IndexManager.unindexNode rt index node) db =
          db.apply (.delete .propIndex (ownKey rt index node)) := rfl
      rw [hexec, Db.getElem?_apply, if_neg]
      rintro ⟨-, hkey⟩
      exact ownKey_ne_metaKey index node g name hkey

variable {rt}

/-- Any store whose indexes follow the data. -/
abbrev Sound (rt : Runtime) (db : Db) : Prop := WellIndexed rt.bin (fun _ => True) (fun _ => True) db

/-- A call that only touches other column families than those of nodes and edges. -/
theorem Sound.of_onlyIn {α : Type} {m : StorageM α} {c : ColumnFamily} {db : Db} (h : Sound rt db)
    (hm : Journaled.Emits (OnlyIn c) m)
    (hc : c ∉ ([.nodes, .edges, .adjOut, .adjIn, .nodeLabels, .edgeLabels] : List ColumnFamily)) :
    Sound rt (Journaled.exec m db) :=
  h.congr fun _ hc' => exec_of_onlyIn hm (fun heq => hc (heq ▸ hc')) db

theorem graphCalls_sound (hnode : rt.bin.node.RoundTrips) (hedge : rt.bin.edge.RoundTrips) :
    GraphCallsKeep rt (Sound rt) where
  putNode node db h := (putNode_keeps hnode trivial h).exec
  putEdge edge db h := (putEdge_keeps hedge trivial h).exec
  deleteNode g i db h := (deleteNode_keeps h).exec
  deleteEdge g i db h := (deleteEdge_keeps h).exec
  indexNode index node db h := h.of_onlyIn (indexNode_onlyIn rt index node) (by decide)
  unindexNode index node db h := h.of_onlyIn (unindexNode_onlyIn rt index node) (by decide)

theorem putGraphMeta_onlyIn (rt : Runtime) (m : GraphMeta) :
    Journaled.Emits (OnlyIn .graphMeta) (StorageEngine.putGraphMeta rt.bin m) := by
  refine Journaled.emits_bind (Journaled.emits_read _) fun value => Journaled.emits_write ?_
  simp [OnlyIn, WriteOp.cf]

theorem catalogCalls_sound : CatalogCallsKeep rt (Sound rt) where
  createIndex index db h := h.of_onlyIn (createIndex_onlyIn rt index) (by decide)
  dropIndex g name db h := h.of_onlyIn (dropIndex_onlyIn rt g name) (by decide)
  putGraphMeta m db h := h.of_onlyIn (putGraphMeta_onlyIn rt m) (by decide)
  deleteGraph g db h := deleteGraph_wellIndexed h

/-- The indexes follow the data in every store that programs leave behind. -/
theorem run_sound {env : Env} (hnode : env.rt.bin.node.RoundTrips) (hedge : env.rt.bin.edge.RoundTrips)
    (requests : List Request) : Sound env.rt (Run.exec (Request.exec env) Db.empty requests) :=
  run_keeps (graphCalls_sound hnode hedge) catalogCalls_sound wellIndexed_empty requests

end Calls

/-! ## What is added -/

/-- The store gains exactly these nodes and edges of one graph. -/
structure Gains (rt : Runtime) (g : GraphId) (ns : List Node) (es : List Edge) (db db' : Db) : Prop where
  newNodes : (ns.map Node.id).Nodup ∧ ∀ n ∈ ns, ∀ n', HasNode rt.bin db g n' → n'.id ≠ n.id
  newEdges : (es.map Edge.id).Nodup ∧ ∀ e ∈ es, ∀ e', HasEdge rt.bin db g e' → e'.id ≠ e.id
  nodes : ∀ g' n, HasNode rt.bin db' g' n ↔ HasNode rt.bin db g' n ∨ g' = g ∧ n ∈ ns
  edges : ∀ g' e, HasEdge rt.bin db' g' e ↔ HasEdge rt.bin db g' e ∨ g' = g ∧ e ∈ es
  catalog : SameCatalog rt db db'

namespace Gains

variable {rt : Runtime} {g : GraphId} {ns ns' : List Node} {es es' : List Edge} {db db' db'' : Db}

theorem refl (db : Db) : Gains rt g [] [] db db where
  newNodes := by simp
  newEdges := by simp
  nodes g' n := by simp
  edges g' e := by simp
  catalog := .refl db

/-- What is gained is what is stored now and was not before. -/
theorem mem_nodes_iff (h : Gains rt g ns es db db') (n : Node) :
    n ∈ ns ↔ HasNode rt.bin db' g n ∧ ¬ HasNode rt.bin db g n := by
  rw [h.nodes]
  constructor
  · exact fun hn => ⟨.inr ⟨rfl, hn⟩, fun hold => h.newNodes.2 n hn n hold rfl⟩
  · rintro ⟨hold | hnew, hnot⟩
    · exact absurd hold hnot
    · exact hnew.2

theorem mem_edges_iff (h : Gains rt g ns es db db') (e : Edge) :
    e ∈ es ↔ HasEdge rt.bin db' g e ∧ ¬ HasEdge rt.bin db g e := by
  rw [h.edges]
  constructor
  · exact fun he => ⟨.inr ⟨rfl, he⟩, fun hold => h.newEdges.2 e he e hold rfl⟩
  · rintro ⟨hold | hnew, hnot⟩
    · exact absurd hold hnot
    · exact hnew.2

/-- The gain is determined up to its order. -/
theorem perm (h : Gains rt g ns es db db') (h' : Gains rt g ns' es' db db') :
    ns.Perm ns' ∧ es.Perm es' := by
  constructor
  · rw [List.perm_ext_iff_of_nodup h.newNodes.1.of_map h'.newNodes.1.of_map]
    intro n
    rw [h.mem_nodes_iff, h'.mem_nodes_iff]
  · rw [List.perm_ext_iff_of_nodup h.newEdges.1.of_map h'.newEdges.1.of_map]
    intro e
    rw [h.mem_edges_iff, h'.mem_edges_iff]

end Gains

end Synaptica.Exec
