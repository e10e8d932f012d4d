import Synaptica.Storage.DropGraph
import Synaptica.Storage.Stored

/-!
# What the calls do to the graphs

On a store whose indexes follow the data every call of the engine either fails and leaves the store as it is, or succeeds
and changes what is stored in one way: a node or an edge is stored under its identifier, an edge is
gone, a node is gone together with its incident edges, or a graph is gone.
-/

open Journaled

namespace Synaptica.Storage

variable {bin : Bincode} {P : Node → Prop} {Q : Edge → Prop} {db db' : Db}

/-! ## Frames -/

theorem hasNode_congr (h : db' .nodes = db .nodes) (g : GraphId) (n : Node) :
    HasNode bin db' g n ↔ HasNode bin db g n := by
  rw [HasNode, HasNode, StorageEngine.getNode, StorageEngine.getNode, h]

theorem hasEdge_congr (h : db' .edges = db .edges) (g : GraphId) (e : Edge) :
    HasEdge bin db' g e ↔ HasEdge bin db g e := by
  rw [HasEdge, HasEdge, StorageEngine.getEdge, StorageEngine.getEdge, h]

/-- A call that reads twice and then writes one batch. -/
theorem exec_read_read_write {α β : Type} (f : Db → StorageResult α) (f' : α → Db → StorageResult β)
    (batch : α → β → WriteBatch) (db : Db) :
    let m : StorageM Unit := read f >>= fun a => read (f' a) >>= fun b => write (batch a b)
    (∃ e, (m db).result = .error e ∧ exec m db = db) ∨
      ∃ a b, f db = .ok a ∧ f' a db = .ok b ∧ (m db).result = .ok () ∧
        exec m db = db.write (batch a b) := by
  dsimp only
  cases ha : f db with
  | error e =>
    have hfirst : ((read f : StorageM α) db).result = .error e := ha
    exact .inl ⟨e, result_bind_error hfirst, exec_bind_error hfirst⟩
  | ok a =>
    have hfirst : ((read f : StorageM α) db).result = .ok a := ha
    rw [result_bind_ok hfirst, exec_bind_ok hfirst]
    cases hb : f' a db with
    | error e =>
      have hsecond : ((read (f' a) : StorageM β) (exec (read f : StorageM α) db)).result = .error e := hb
      exact .inl ⟨e, result_bind_error hsecond, exec_bind_error hsecond⟩
    | ok b =>
      have hsecond : ((read (f' a) : StorageM β) (exec (read f : StorageM α) db)).result = .ok b := hb
      rw [result_bind_ok hsecond, exec_bind_ok hsecond]
      exact .inr ⟨a, b, rfl, hb, rfl, rfl⟩

/-! ## Storing -/

section Put

variable (bin) in
theorem putNode_cases (node : Node) (db : Db) :
    (∃ e, (StorageEngine.putNode bin node db).result = .error e ∧
      exec (StorageEngine.putNode bin node) db = db) ∨
    ∃ stale value, StorageEngine.staleLabels bin db node = .ok stale ∧
      serializeValue bin.node node = .ok value ∧ (StorageEngine.putNode bin node db).result = .ok () ∧
      exec (StorageEngine.putNode bin node) db = db.write (StorageEngine.putNodeBatch node stale value) :=
  exec_read_read_write _ _ _ db

variable (bin) in
theorem putEdge_cases (edge : Edge) (db : Db) :
    (∃ e, (StorageEngine.putEdge bin edge db).result = .error e ∧
      exec (StorageEngine.putEdge bin edge) db = db) ∨
    ∃ stale value, StorageEngine.staleEdge bin db edge = .ok stale ∧
      serializeValue bin.edge edge = .ok value ∧ (StorageEngine.putEdge bin edge db).result = .ok () ∧
      exec (StorageEngine.putEdge bin edge) db = db.write (StorageEngine.putEdgeBatch edge stale value) :=
  exec_read_read_write _ _ _ db

/-- A node that was stored is found under its identifier, and every other node is as before. -/
theorem hasNode_putNode (hbin : bin.node.RoundTrips) (h : WellIndexed bin P Q db) {node : Node}
    (hfit : P node) (hok : (StorageEngine.putNode bin node db).result = .ok ()) {g : GraphId}
    {n : Node} : HasNode bin (exec (StorageEngine.putNode bin node) db) g n ↔
      (g = node.graphId ∧ n = node) ∨ (HasNode bin db g n ∧ ¬ (g = node.graphId ∧ n.id = node.id)) := by
  rcases putNode_cases bin node db with ⟨e, herror, -⟩ | ⟨stale, value, -, hvalue, -, hexec⟩
  · rw [hok] at herror
    cases herror
  have hdecode : bin.node.deserialize value = .ok node := hbin node value (serializeValue_eq_ok.mp hvalue)
  obtain ⟨-, hrecords⟩ := h.nodes.decodes.put hdecode hfit (putNodeBatch_nodes db node stale value)
  rw [hexec, HasNode, getNode_eq_ok, hrecords, HasNode, getNode_eq_ok, Function.update_apply]
  have hkey : encodeNodeKey g n.id = (nodeLayout bin).key node ↔ g = node.graphId ∧ n.id = node.id :=
    encodeNodeKey_inj
  by_cases hsame : g = node.graphId ∧ n.id = node.id
  · rw [if_pos (hkey.mpr hsame)]
    constructor
    · intro hn
      cases hn
      exact .inl ⟨hsame.1, rfl⟩
    · rintro (⟨-, rfl⟩ | ⟨-, hne⟩)
      · rfl
      · exact absurd hsame hne
  · rw [if_neg (mt hkey.mp hsame)]
    constructor
    · exact fun hn => .inr ⟨hn, hsame⟩
    · rintro (⟨rfl, rfl⟩ | ⟨hn, -⟩)
      · exact absurd ⟨rfl, rfl⟩ hsame
      · exact hn

theorem hasEdge_putNode (node : Node) (g : GraphId) (e : Edge) :
    HasEdge bin (exec (StorageEngine.putNode bin node) db) g e ↔ HasEdge bin db g e := by
  apply hasEdge_congr
  rcases putNode_cases bin node db with ⟨_, -, hexec⟩ | ⟨stale, value, -, -, -, hexec⟩
  · rw [hexec]
  · rw [hexec]
    exact putNodeBatch_other db node stale value (by decide) (by decide)

/-- An edge that was stored is found under its identifier, and every other edge is as before. -/
theorem hasEdge_putEdge (hbin : bin.edge.RoundTrips) (h : WellIndexed bin P Q db) {edge : Edge}
    (hfit : Q edge) (hok : (StorageEngine.putEdge bin edge db).result = .ok ()) {g : GraphId}
    {e : Edge} : HasEdge bin (exec (StorageEngine.putEdge bin edge) db) g e ↔
      (g = edge.graphId ∧ e = edge) ∨ (HasEdge bin db g e ∧ ¬ (g = edge.graphId ∧ e.id = edge.id)) := by
  rcases putEdge_cases bin edge db with ⟨_, herror, -⟩ | ⟨stale, value, -, hvalue, -, hexec⟩
  · rw [hok] at herror
    cases herror
  have hdecode : bin.edge.deserialize value = .ok edge := hbin edge value (serializeValue_eq_ok.mp hvalue)
  obtain ⟨-, hrecords⟩ := h.edges.decodes.put hdecode hfit
    (@putEdgeBatch_edges db edge stale value)
  rw [hexec, HasEdge, getEdge_eq_ok, hrecords, HasEdge, getEdge_eq_ok, Function.update_apply]
  have hkey : encodeEdgeKey g e.id = (edgeLayout bin).key edge ↔ g = edge.graphId ∧ e.id = edge.id :=
    encodeEdgeKey_inj
  by_cases hsame : g = edge.graphId ∧ e.id = edge.id
  · rw [if_pos (hkey.mpr hsame)]
    constructor
    · intro he
      cases he
      exact .inl ⟨hsame.1, rfl⟩
    · rintro (⟨-, rfl⟩ | ⟨-, hne⟩)
      · rfl
      · exact absurd hsame hne
  · rw [if_neg (mt hkey.mp hsame)]
    constructor
    · exact fun he => .inr ⟨he, hsame⟩
    · rintro (⟨rfl, rfl⟩ | ⟨he, -⟩)
      · exact absurd ⟨rfl, rfl⟩ hsame
      · exact he

theorem hasNode_putEdge (edge : Edge) (g : GraphId) (n : Node) :
    HasNode bin (exec (StorageEngine.putEdge bin edge) db) g n ↔ HasNode bin db g n := by
  apply hasNode_congr
  rcases putEdge_cases bin edge db with ⟨_, -, hexec⟩ | ⟨stale, value, -, -, -, hexec⟩
  · rw [hexec]
  · rw [hexec]
    exact putEdgeBatch_other (.inl rfl)

end Put

/-! ## Deleting edges -/

section DeleteEdge

variable {g : GraphId}

variable (bin) in
theorem deleteEdge_cases (i : EdgeId) (db : Db) :
    (∃ e, StorageEngine.getEdge bin db g i = .error e ∧
      (StorageEngine.deleteEdge bin g i db).result = .error e ∧
      exec (StorageEngine.deleteEdge bin g i) db = db) ∨
    ∃ edge, StorageEngine.getEdge bin db g i = .ok edge ∧
      (StorageEngine.deleteEdge bin g i db).result = .ok () ∧
      exec (StorageEngine.deleteEdge bin g i) db =
        db.write (.delete .edges (encodeEdgeKey g i) :: StorageEngine.dropEdgeEntries g i edge) := by
  cases hedge : StorageEngine.getEdge bin db g i with
  | error e =>
    have hread : ((read fun db => StorageEngine.getEdge bin db g i : StorageM Edge) db).result =
        .error e := hedge
    exact .inl ⟨e, rfl, result_bind_error hread, exec_bind_error hread⟩
  | ok edge =>
    have hread : ((read fun db => StorageEngine.getEdge bin db g i : StorageM Edge) db).result =
        .ok edge := hedge
    exact .inr ⟨edge, rfl, result_bind_ok hread, exec_bind_ok hread⟩

theorem hasNode_deleteEdge (i : EdgeId) (g' : GraphId) (n : Node) :
    HasNode bin (exec (StorageEngine.deleteEdge bin g i) db) g' n ↔ HasNode bin db g' n := by
  apply hasNode_congr
  rcases deleteEdge_cases bin (g := g) i db with ⟨_, -, -, hexec⟩ | ⟨edge, -, -, hexec⟩
  · rw [hexec]
  · rw [hexec]
    exact deleteEdge_other (.inl rfl)

/-- After the call the edge is gone, whether it was stored or not, and every other edge is as before. -/
theorem hasEdge_deleteEdge (h : WellIndexed bin P Q db) (i : EdgeId) (g' : GraphId) (e : Edge) :
    HasEdge bin (exec (StorageEngine.deleteEdge bin g i) db) g' e ↔
      HasEdge bin db g' e ∧ ¬ (g' = g ∧ e.id = i) := by
  rcases deleteEdge_cases bin (g := g) i db with ⟨_, hmissing, -, hexec⟩ | ⟨edge, hedge, -, hexec⟩
  · rw [hexec]
    refine (and_iff_left_of_imp fun he hsame => ?_).symm
    rw [HasEdge, hsame.1, hsame.2, hmissing] at he
    cases he
  · have hdata : ∀ k, (db.write (.delete .edges (encodeEdgeKey g i) ::
        StorageEngine.dropEdgeEntries g i edge) .edges)[k]? =
          if k = encodeEdgeKey g i then none else (db .edges)[k]? := by
      intro k
      simp [StorageEngine.dropEdgeEntries, Db.getElem?_apply, WriteOp.cf, WriteOp.key, WriteOp.result,
        eq_comm]
    obtain ⟨-, hrecords⟩ := h.edges.decodes.erase hdata
    rw [hexec, HasEdge, getEdge_eq_ok, hrecords, HasEdge, getEdge_eq_ok, Function.update_apply,
      ← encodeEdgeKey_inj]
    split
    · rename_i hkey
      simp [hkey]
    · rename_i hkey
      simp [hkey]

/-- One turn of the loop of `delete_node`, on an edge it has not seen. -/
theorem deleteConnected_cons {edge : Edge} {seen : List EdgeId} (hnew : edge.id ∉ seen)
    (edges : List Edge) (db : Db) :
    (∃ e, StorageEngine.getEdge bin db g edge.id = .error e ∧
      (StorageEngine.deleteConnected bin g seen (edge :: edges) db).result = .error e ∧
      exec (StorageEngine.deleteConnected bin g seen (edge :: edges)) db = db) ∨
    (StorageEngine.deleteConnected bin g seen (edge :: edges) db).result =
        (StorageEngine.deleteConnected bin g (edge.id :: seen) edges
          (exec (StorageEngine.deleteEdge bin g edge.id) db)).result ∧
      exec (StorageEngine.deleteConnected bin g seen (edge :: edges)) db =
        exec (StorageEngine.deleteConnected bin g (edge.id :: seen) edges)
          (exec (StorageEngine.deleteEdge bin g edge.id) db) := by
  rw [StorageEngine.deleteConnected, if_neg hnew]
  rcases deleteEdge_cases bin (g := g) edge.id db with
    ⟨e, hmissing, herror, hexec⟩ | ⟨_, -, hok, -⟩
  · exact .inl ⟨e, hmissing, result_bind_error herror, (exec_bind_error herror).trans hexec⟩
  · exact .inr ⟨result_bind_ok hok, exec_bind_ok hok⟩

/-- The loop leaves no edge that was not there. -/
theorem hasEdge_of_deleteConnected (h : WellIndexed bin P Q db) {seen : List EdgeId} {edges : List Edge}
    {g' : GraphId} {e : Edge}
    (he : HasEdge bin (exec (StorageEngine.deleteConnected bin g seen edges) db) g' e) :
    HasEdge bin db g' e := by
  induction edges generalizing seen db with
  | nil => exact he
  | cons edge edges ih =>
    by_cases hnew : edge.id ∈ seen
    · rw [StorageEngine.deleteConnected, if_pos hnew] at he
      exact ih h he
    · rcases deleteConnected_cons hnew edges db with ⟨_, -, -, hexec⟩ | ⟨-, hexec⟩
      · rwa [hexec] at he
      · rw [hexec] at he
        exact ((hasEdge_deleteEdge h edge.id g' e).mp (ih (deleteEdge_keeps h).exec he)).1

/-- When the loop ends well, the edges that it had not seen are gone. -/
theorem hasEdge_deleteConnected (h : WellIndexed bin P Q db) {seen : List EdgeId} {edges : List Edge}
    (hok : (StorageEngine.deleteConnected bin g seen edges db).result = .ok ()) (g' : GraphId)
    (e : Edge) : HasEdge bin (exec (StorageEngine.deleteConnected bin g seen edges) db) g' e ↔
      HasEdge bin db g' e ∧ ¬ (g' = g ∧ e.id ∉ seen ∧ e.id ∈ edges.map Edge.id) := by
  induction edges generalizing seen db with
  | nil =>
    show HasEdge bin db g' e ↔ _
    simp
  | cons edge edges ih =>
    by_cases hnew : edge.id ∈ seen
    · rw [StorageEngine.deleteConnected, if_pos hnew] at hok ⊢
      rw [ih h hok]
      grind
    · rcases deleteConnected_cons hnew edges db with ⟨_, -, herror, -⟩ | ⟨hresult, hexec⟩
      · rw [hok] at herror
        cases herror
      · rw [hexec, ih (deleteEdge_keeps h).exec (hresult ▸ hok), hasEdge_deleteEdge h]
        grind

/-- The loop ends well when the edges that it has not seen are stored. -/
theorem deleteConnected_ok (h : WellIndexed bin P Q db) {seen : List EdgeId} {edges : List Edge}
    (hall : ∀ e ∈ edges, e.id ∉ seen → HasEdge bin db g e) :
    (StorageEngine.deleteConnected bin g seen edges db).result = .ok () := by
  induction edges generalizing seen db with
  | nil => rfl
  | cons edge edges ih =>
    by_cases hnew : edge.id ∈ seen
    · rw [StorageEngine.deleteConnected, if_pos hnew]
      exact ih h fun e he => hall e (List.mem_cons_of_mem _ he)
    · rcases deleteConnected_cons hnew edges db with ⟨_, hmissing, -, -⟩ | ⟨hresult, -⟩
      · have hstored : HasEdge bin db g edge := hall edge List.mem_cons_self hnew
        rw [HasEdge, hmissing] at hstored
        cases hstored
      · rw [hresult]
        refine ih (deleteEdge_keeps h).exec fun e he hunseen => ?_
        rw [List.mem_cons, not_or] at hunseen
        exact (hasEdge_deleteEdge h edge.id g e).mpr
          ⟨hall e (List.mem_cons_of_mem _ he) hunseen.2, fun hsame => hunseen.1 hsame.2⟩

end DeleteEdge

/-! ## Deleting nodes -/

section DeleteNode

variable {g : GraphId}

/-- Either the node is missing and nothing happens, or the incident edges are deleted and then the
node. -/
theorem deleteNode_cases (h : WellIndexed bin P Q db) (i : NodeId) :
    (∃ e, StorageEngine.getNode bin db g i = .error e ∧
      (StorageEngine.deleteNode bin g i db).result = .error e ∧
      exec (StorageEngine.deleteNode bin g i) db = db) ∨
    ∃ node edges, StorageEngine.getNode bin db g i = .ok node ∧
      (∀ e, e ∈ edges ↔ HasEdge bin db g e ∧ (e.source = i ∨ e.target = i)) ∧
      (StorageEngine.deleteConnected bin g [] edges db).result = .ok () ∧
      (StorageEngine.deleteNode bin g i db).result = .ok () ∧
      exec (StorageEngine.deleteNode bin g i) db =
        (exec (StorageEngine.deleteConnected bin g [] edges) db).write
          (StorageEngine.deleteNodeBatch g i node) := by
  cases hnode : StorageEngine.getNode bin db g i with
  | error e =>
    have hread : ((read fun db => StorageEngine.getNode bin db g i : StorageM Node) db).result =
        .error e := hnode
    exact .inl ⟨e, rfl, result_bind_error hread, exec_bind_error hread⟩
  | ok node =>
    obtain ⟨⟨out, hout, -, homem⟩, ⟨inc, hinc, -, himem⟩⟩ :=
      exists_adjacent h g i none (selects_matchesLabel (by simp))
    have hmem : ∀ e, e ∈ out ++ inc ↔ HasEdge bin db g e ∧ (e.source = i ∨ e.target = i) := by
      intro e
      rw [List.mem_append, homem, himem]
      simp only [matchesLabel, and_true]
      tauto
    have hedges : (StorageEngine.deleteConnected bin g [] (out ++ inc) db).result = .ok () :=
      deleteConnected_ok h fun e he _ => ((hmem e).mp he).1
    have hread : ((read fun db => StorageEngine.getNode bin db g i : StorageM Node) db).result =
        .ok node := hnode
    have hreadOut : ((read fun db => StorageEngine.getOutgoingEdges bin db g i none :
        StorageM (List Edge)) db).result = .ok out := hout
    have hreadInc : ((read fun db => StorageEngine.getIncomingEdges bin db g i none :
        StorageM (List Edge)) db).result = .ok inc := hinc
    refine .inr ⟨node, out ++ inc, rfl, hmem, hedges, ?_, ?_⟩
    · rw [StorageEngine.deleteNode, result_bind_ok hread]
      show ((read _ >>= _ : StorageM Unit) db).result = _
      rw [result_bind_ok hreadOut]
      show ((read _ >>= _ : StorageM Unit) db).result = _
      rw [result_bind_ok hreadInc]
      exact result_bind_ok hedges
    · rw [StorageEngine.deleteNode, exec_bind_ok hread]
      show exec (read _ >>= _ : StorageM Unit) db = _
      rw [exec_bind_ok hreadOut]
      show exec (read _ >>= _ : StorageM Unit) db = _
      rw [exec_bind_ok hreadInc]
      exact exec_bind_ok hedges

/-- A stored node can be deleted, and only a stored one. -/
theorem deleteNode_ok_iff (h : WellIndexed bin P Q db) (i : NodeId) :
    (StorageEngine.deleteNode bin g i db).result = .ok () ↔ ∃ n, HasNode bin db g n ∧ n.id = i := by
  rcases deleteNode_cases (g := g) h i with ⟨e, hmissing, hresult, -⟩ | ⟨node, _, hnode, -, -, hresult, -⟩
  · rw [hresult]
    refine iff_of_false (by simp) ?_
    rintro ⟨n, hn, rfl⟩
    rw [HasNode, hmissing] at hn
    cases hn
  · have hid : node.id = i := (h.node_id (getNode_eq_ok.mp hnode)).2
    refine iff_of_true hresult ⟨node, ?_, hid⟩
    rw [HasNode, hid, hnode]

/-- After the call the node is gone, whether it was stored or not, and every other node is as before. -/
theorem hasNode_deleteNode (h : WellIndexed bin P Q db) (i : NodeId) (g' : GraphId) (n : Node) :
    HasNode bin (exec (StorageEngine.deleteNode bin g i) db) g' n ↔
      HasNode bin db g' n ∧ ¬ (g' = g ∧ n.id = i) := by
  rcases deleteNode_cases (g := g) h i with
    ⟨_, hmissing, -, hexec⟩ | ⟨node, edges, hnode, -, -, -, hexec⟩
  · rw [hexec]
    refine (and_iff_left_of_imp fun hn hsame => ?_).symm
    rw [HasNode, hsame.1, hsame.2, hmissing] at hn
    cases hn
  · obtain ⟨hcons, hnodes⟩ := (deleteConnected_keepsNodes (g := g) [] edges ⟨h, rfl⟩).exec
    have hdata : ∀ k, ((exec (StorageEngine.deleteConnected bin g [] edges) db).write
        (StorageEngine.deleteNodeBatch g i node) .nodes)[k]? =
          if k = encodeNodeKey g i then none
          else (exec (StorageEngine.deleteConnected bin g [] edges) db .nodes)[k]? := by
      intro k
      rw [StorageEngine.deleteNodeBatch, Db.write_cons, Db.getElem?_write_deletes, Db.getElem?_apply]
      simp [WriteOp.cf, WriteOp.key, WriteOp.result, eq_comm]
    obtain ⟨-, hrecords⟩ := hcons.nodes.decodes.erase hdata
    rw [hexec, HasNode, getNode_eq_ok, hrecords, Function.update_apply, ← hasNode_congr hnodes, HasNode,
      getNode_eq_ok, ← encodeNodeKey_inj]
    split
    · rename_i hkey
      simp [hkey]
    · rename_i hkey
      simp [hkey]

/-- When the node was stored, its incident edges are gone with it. -/
theorem hasEdge_deleteNode (h : WellIndexed bin P Q db) (i : NodeId) (g' : GraphId) (e : Edge) :
    HasEdge bin (exec (StorageEngine.deleteNode bin g i) db) g' e ↔ HasEdge bin db g' e ∧
      ¬ (g' = g ∧ (e.source = i ∨ e.target = i) ∧ ∃ n, HasNode bin db g n ∧ n.id = i) := by
  rcases deleteNode_cases (g := g) h i with
    ⟨_, hmissing, -, hexec⟩ | ⟨node, edges, hnode, hmem, hok, -, hexec⟩
  · rw [hexec]
    refine (and_iff_left_of_imp fun _ hgone => ?_).symm
    obtain ⟨-, -, n, hn, rfl⟩ := hgone
    rw [HasNode, hmissing] at hn
    cases hn
  · have hstored : ∃ n, HasNode bin db g n ∧ n.id = i := by
      have hid : node.id = i := (h.node_id (getNode_eq_ok.mp hnode)).2
      exact ⟨node, by rw [HasNode, hid, hnode], hid⟩
    have hframe : exec (StorageEngine.deleteNode bin g i) db .edges =
        exec (StorageEngine.deleteConnected bin g [] edges) db .edges := by
      rw [hexec]
      exact deleteNodeBatch_other (by decide) (by decide)
    rw [hasEdge_congr hframe, hasEdge_deleteConnected h hok]
    refine and_congr_right fun he => not_congr ?_
    constructor
    · rintro ⟨rfl, -, hlisted⟩
      obtain ⟨e', he', hid⟩ := List.mem_map.mp hlisted
      obtain ⟨hstored', hends⟩ := (hmem e').mp he'
      rw [hstored'.eq_of_id he hid] at hends
      exact ⟨rfl, hends, hstored⟩
    · rintro ⟨rfl, hends, -⟩
      exact ⟨rfl, List.not_mem_nil, List.mem_map_of_mem ((hmem e).mpr ⟨he, hends⟩)⟩

end DeleteNode

/-! ## Deleting graphs -/

theorem hasNode_deleteGraph (g g' : GraphId) (n : Node) :
    HasNode bin (exec (StorageEngine.deleteGraph g) db) g' n ↔ HasNode bin db g' n ∧ g' ≠ g := by
  have hstarts : g.asBytes <+: encodeNodeKey g' n.id ↔ g = g' := graph_prefix_iff
  rw [HasNode, HasNode, StorageEngine.getNode, StorageEngine.getNode,
    deleteGraph_exec g db (by decide) (encodeNodeKey g' n.id)]
  by_cases hg : g = g'
  · rw [if_pos (hstarts.mpr hg)]
    simp [hg]
  · rw [if_neg (mt hstarts.mp hg)]
    simp [Ne.symm hg]

theorem hasEdge_deleteGraph (g g' : GraphId) (e : Edge) :
    HasEdge bin (exec (StorageEngine.deleteGraph g) db) g' e ↔ HasEdge bin db g' e ∧ g' ≠ g := by
  have hstarts : g.asBytes <+: encodeEdgeKey g' e.id ↔ g = g' := graph_prefix_iff
  rw [HasEdge, HasEdge, StorageEngine.getEdge, StorageEngine.getEdge,
    deleteGraph_exec g db (by decide) (encodeEdgeKey g' e.id)]
  by_cases hg : g = g'
  · rw [if_pos (hstarts.mpr hg)]
    simp [hg]
  · rw [if_neg (mt hstarts.mp hg)]
    simp [Ne.symm hg]

/-! ## Other column families -/

/-- A call whose batches do not touch a column family leaves it as it is. -/
theorem exec_of_emits {α : Type} {m : StorageM α} {c : ColumnFamily}
    (h : Emits (fun batch : WriteBatch => ∀ op ∈ batch, op.cf ≠ c) m) (db : Db) : exec m db c = db c := by
  have hall : ∀ (batches : List WriteBatch) (db : Db), (∀ b ∈ batches, ∀ op ∈ b, op.cf ≠ c) →
      Writable.writeAll db batches c = db c := by
    intro batches
    induction batches with
    | nil => exact fun _ _ => rfl
    | cons batch batches ih =>
      intro db hb
      rw [Writable.writeAll_cons, ih _ fun b hmem => hb b (List.mem_cons_of_mem _ hmem)]
      exact Db.write_of_forall_cf_ne (hb batch List.mem_cons_self)
  exact hall _ db (h db)

/-- Only the column families of nodes, edges and their indexes matter. -/
theorem WellIndexed.congr (h : WellIndexed bin P Q db)
    (hsame : ∀ c ∈ ([.nodes, .edges, .adjOut, .adjIn, .nodeLabels, .edgeLabels] : List ColumnFamily),
      db' c = db c) : WellIndexed bin P Q db' where
  nodes := by
    apply h.nodes.congr (hsame .nodes (by decide))
    simp only [nodeIndexes, List.mem_singleton, forall_eq]
    exact hsame .nodeLabels (by decide)
  edges := by
    apply h.edges.congr (hsame .edges (by decide))
    simp only [edgeIndexes, List.mem_cons, List.not_mem_nil, or_false]
    rintro ix (rfl | rfl | rfl)
    · exact hsame .adjOut (by decide)
    · exact hsame .adjIn (by decide)
    · exact hsame .edgeLabels (by decide)

end Synaptica.Storage
