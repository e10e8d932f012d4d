import Synaptica.Exec.Contents
import Synaptica.Exec.Successes
import Synaptica.Storage.GraphState

/-!
# What the write operators do to the graph

A write operator that succeeds turns the graph it works on into another one: it puts new nodes and edges,
assigns properties, or removes nodes and edges. `Effect` records this graph together with what every part
of a run preserves: the indexes follow the data, the identifiers that are stored are old or were drawn, and
the counts that were reported account for the difference in size.
-/

namespace Synaptica.Exec

open Gql Storage Process

/-! ## Effects -/

/-- Adding up one more report. -/
theorem ExecStats.total_append (reports : List ExecStats) (r : ExecStats) :
    total (reports ++ [r]) = ⟨(total reports).nodesCreated + r.nodesCreated,
      (total reports).nodesDeleted + r.nodesDeleted, (total reports).edgesCreated + r.edgesCreated,
      (total reports).edgesDeleted + r.edgesDeleted, (total reports).propertiesSet + r.propertiesSet⟩ := by
  rw [total, List.foldl_append]
  rfl

section Effects

variable (env : Env) (graphId : GraphId) (U : Set Uuid)

/-- The indexes follow the data, and every identifier that is stored is among `U` or was drawn. -/
structure Good (c : Config Db Draw ExecStats) : Prop where
  sound : Sound env.rt c.state
  known : ∀ u ∈ (graphOf env.rt.bin c.state graphId).uuids, u ∈ U ∨ u ∈ c.drawn.map Draw.uuid

/-- The successful part of a run from `c` to `c'` turned the graph into `G`. -/
structure Effect (c c' : Config Db Draw ExecStats) (G : PropertyGraph) : Prop where
  becomes : Becomes env.rt.bin graphId c.state c'.state G
  good : Good env graphId U c'
  nodes : G.nodes.count + (ExecStats.total c'.reports).nodesDeleted +
    (ExecStats.total c.reports).nodesCreated =
      (graphOf env.rt.bin c.state graphId).nodes.count + (ExecStats.total c.reports).nodesDeleted +
        (ExecStats.total c'.reports).nodesCreated
  edges : G.edges.count + (ExecStats.total c'.reports).edgesDeleted +
    (ExecStats.total c.reports).edgesCreated =
      (graphOf env.rt.bin c.state graphId).edges.count + (ExecStats.total c.reports).edgesDeleted +
        (ExecStats.total c'.reports).edgesCreated

variable {env graphId U}
variable {c c' c'' : Config Db Draw ExecStats} {G G' : PropertyGraph}

/-- At the start of a run the identifiers that are stored are old. -/
theorem Good.of_state {db : Db} (hdb : Sound env.rt db) (hstate : c.state = db) :
    Good env graphId (graphOf env.rt.bin db graphId).uuids c := by
  subst hstate
  exact ⟨hdb, fun u hu => .inl hu⟩

theorem Effect.trans (h : Effect env graphId U c c' G) (h' : Effect env graphId U c' c'' G') :
    Effect env graphId U c c'' G' := by
  have hnodes := h.nodes
  have hedges := h.edges
  have hnodes' := h'.nodes
  have hedges' := h'.edges
  rw [h.becomes.graph] at hnodes' hedges'
  exact ⟨h.becomes.trans h'.becomes, h'.good, by omega, by omega⟩

/-- A step that makes one report. -/
theorem Effect.of_report {r : ExecStats} (hc : Good env graphId U c)
    (hbecomes : Becomes env.rt.bin graphId c.state c'.state G) (hsound : Sound env.rt c'.state)
    (hdrawn : c.drawn <+: c'.drawn)
    (hknown : ∀ u ∈ G.uuids, u ∈ (graphOf env.rt.bin c.state graphId).uuids ∨ u ∈ c'.drawn.map Draw.uuid)
    (hreports : c'.reports = c.reports ++ [r])
    (hnodes : G.nodes.count + r.nodesDeleted =
      (graphOf env.rt.bin c.state graphId).nodes.count + r.nodesCreated)
    (hedges : G.edges.count + r.edgesDeleted =
      (graphOf env.rt.bin c.state graphId).edges.count + r.edgesCreated) :
    Effect env graphId U c c' G := by
  refine ⟨hbecomes, ⟨hsound, fun u hu => ?_⟩, ?_, ?_⟩
  · rw [hbecomes.graph] at hu
    rcases hknown u hu with hold | hnew
    · exact (hc.known u hold).imp_right fun hdraw => (hdrawn.map Draw.uuid).subset hdraw
    · exact .inr hnew
  · rw [hreports, ExecStats.total_append]
    dsimp only
    omega
  · rw [hreports, ExecStats.total_append]
    dsimp only
    omega

/-- A step that makes no report, and creates and removes nothing. -/
theorem Effect.of_call (hc : Good env graphId U c) (hbecomes : Becomes env.rt.bin graphId c.state c'.state G)
    (hsound : Sound env.rt c'.state) (hdrawn : c.drawn <+: c'.drawn)
    (hknown : G.uuids ⊆ (graphOf env.rt.bin c.state graphId).uuids) (hreports : c'.reports = c.reports)
    (hcount : G.nodes.count = (graphOf env.rt.bin c.state graphId).nodes.count ∧
      G.edges.count = (graphOf env.rt.bin c.state graphId).edges.count) :
    Effect env graphId U c c' G := by
  refine ⟨hbecomes, ⟨hsound, fun u hu => ?_⟩, ?_, ?_⟩
  · rw [hbecomes.graph] at hu
    exact (hc.known u (hknown hu)).imp_right fun hdraw => (hdrawn.map Draw.uuid).subset hdraw
  · rw [hreports, hcount.1]
  · rw [hreports, hcount.2]

/-- A part of a run that neither touches the graph nor reports. -/
theorem Effect.of_silent (hc : Good env graphId U c)
    (hbecomes : Becomes env.rt.bin graphId c.state c'.state (graphOf env.rt.bin c.state graphId))
    (hsound : Sound env.rt c'.state) (hdrawn : c.drawn <+: c'.drawn) (hreports : c'.reports = c.reports) :
    Effect env graphId U c c' (graphOf env.rt.bin c.state graphId) :=
  .of_call hc hbecomes hsound hdrawn (fun _ hu => hu) hreports ⟨rfl, rfl⟩

theorem Effect.refl (hc : Good env graphId U c) :
    Effect env graphId U c c (graphOf env.rt.bin c.state graphId) :=
  .of_silent hc .refl hc.sound (List.prefix_refl _) rfl

/-- A process that only reads, and reports nothing. -/
theorem Effect.of_reads {α : Type} {a : α} {p : ExecM α} (hc : Good env graphId U c) (hreads : p.Reads)
    (hsilent : p.Silent) (hgo : p.Goes c a c') :
    Effect env graphId U c c' (graphOf env.rt.bin c.state graphId) := by
  have hstate : c'.state = c.state := hreads.goes hgo
  refine .of_silent hc ?_ ?_ hgo.drawn_isPrefix (hsilent hgo)
  · rw [hstate]
    exact .refl
  · rw [hstate]
    exact hc.sound

/-- What stays the same when only index entries, definitions and graphs are written. -/
def SameData (env : Env) (db db' : Db) : Prop :=
  db' .nodes = db .nodes ∧ db' .edges = db .edges ∧ Sound env.rt db'

theorem SameData.of_onlyIn {α : Type} {m : StorageM α} {cf : ColumnFamily}
    (hm : Journaled.Emits (OnlyIn cf) m)
    (hcf : cf ∉ ([.nodes, .edges, .adjOut, .adjIn, .nodeLabels, .edgeLabels] : List ColumnFamily))
    {db db' : Db} (h : SameData env db db') : SameData env db (Journaled.exec m db') := by
  refine ⟨?_, ?_, h.2.2.of_onlyIn hm hcf⟩
  · rw [exec_of_onlyIn hm (fun heq => hcf (by simp [← heq])), h.1]
  · rw [exec_of_onlyIn hm (fun heq => hcf (by simp [← heq])), h.2.1]

/-- A process that writes no node and no edge, and reports nothing. -/
theorem effect_of_sameData {α : Type} {a : α} {p : ExecM α} (hc : Good env graphId U c)
    (hkeeps : ∀ db, p.Keeps (SameData env db)) (hsilent : p.Silent) (hgo : p.Goes c a c') :
    Effect env graphId U c c' (graphOf env.rt.bin c.state graphId) := by
  obtain ⟨hnodes, hedges, hsound⟩ := (hkeeps c.state).goes hgo ⟨rfl, rfl, hc.sound⟩
  exact .of_silent hc (.of_congr hnodes hedges) hsound hgo.drawn_isPrefix (hsilent hgo)

end Effects

/-! ## Index upkeep -/

section Upkeep

variable {env : Env} {graphId : GraphId} {U : Set Uuid} {c c' : Config Db Draw ExecStats} {node : Node}

theorem silent_maintainIndexes (write : IndexDefinition → Node → StorageM Unit) (node : Node) :
    (maintainIndexes env graphId write node).Silent := by
  have hmaintain : ∀ defs, (maintain write node defs).Silent := by
    intro defs
    induction defs with
    | nil => exact silent_pure ()
    | cons index defs ih =>
      rw [maintain]
      split
      · exact silent_bind (silent_atomic _ _) fun _ => ih
      · exact ih
  apply silent_bind (looks_tryQuery _).silent
  intro found
  cases found with
  | ok defs => exact hmaintain defs
  | error e => exact silent_pure ()

/-- Index entries are no part of the graph. -/
theorem effect_maintainIndexes {write : IndexDefinition → Node → StorageM Unit}
    (hwrite : ∀ index node, Journaled.Emits (OnlyIn .propIndex) (write index node))
    (hc : Good env graphId U c) {u : Unit} (hgo : (maintainIndexes env graphId write node).Goes c u c') :
    Effect env graphId U c c' (graphOf env.rt.bin c.state graphId) := by
  refine effect_of_sameData hc (fun db => ?_) (silent_maintainIndexes write node) hgo
  apply keeps_maintainIndexes
  exact fun index node db' h => h.of_onlyIn (hwrite index node) (by decide)

theorem effect_indexNodeOnWrite (hc : Good env graphId U c) {u : Unit}
    (hgo : (indexNodeOnWrite env graphId node).Goes c u c') :
    Effect env graphId U c c' (graphOf env.rt.bin c.state graphId) :=
  effect_maintainIndexes (indexNode_onlyIn env.rt) hc hgo

theorem effect_unindexNodeOnDelete (hc : Good env graphId U c) {u : Unit}
    (hgo : (unindexNodeOnDelete env graphId node).Goes c u c') :
    Effect env graphId U c c' (graphOf env.rt.bin c.state graphId) :=
  effect_maintainIndexes (unindexNode_onlyIn env.rt) hc hgo

end Upkeep

/-! ## Creating -/

section Creating

variable {env : Env} {graphId : GraphId} {U : Set Uuid} {c c' : Config Db Draw ExecStats}

/-- No draw is among `U`, and none is made twice. -/
structure Fresh (U : Set Uuid) (draws : List Draw) : Prop where
  nodup : (draws.map Draw.uuid).Nodup
  new : ∀ u ∈ draws.map Draw.uuid, u ∉ U

theorem Fresh.of_isPrefix {ds ds' : List Draw} (h : Fresh U ds') (hpre : ds <+: ds') : Fresh U ds :=
  ⟨h.nodup.sublist (hpre.sublist.map _), fun u hu => h.new u ((hpre.map _).subset hu)⟩

/-- Nothing is stored in the empty store. -/
theorem fresh_empty {bin : Bincode} {draws : List Draw} (hnodup : (draws.map Draw.uuid).Nodup) :
    Fresh (graphOf bin Db.empty graphId).uuids draws := by
  refine ⟨hnodup, fun u _ hu => ?_⟩
  rcases hu with ⟨n, hn, -⟩ | ⟨e, he, -⟩
  · have hmissing : HasNode bin Db.empty graphId n := hn
    simp [HasNode, StorageEngine.getNode, Db.empty] at hmissing
  · have hmissing : HasEdge bin Db.empty graphId e := he
    simp [HasEdge, StorageEngine.getEdge, Db.empty] at hmissing

/-- The next draw is not stored. -/
theorem Good.notMem_uuids (hc : Good env graphId U c) {d : Draw} (hfresh : Fresh U (c.drawn ++ [d])) :
    d.uuid ∉ (graphOf env.rt.bin c.state graphId).uuids := by
  intro hu
  have hnodup := hfresh.nodup
  rw [List.map_append, List.nodup_append] at hnodup
  rcases hc.known d.uuid hu with hold | hdrawn
  · exact hfresh.new d.uuid (by simp) hold
  · exact hnodup.2.2 d.uuid hdrawn d.uuid (by simp) rfl

/-- The node that a node pattern creates. -/
def createdNode (graphId : GraphId) (uuid : Uuid) (labels : List String) (props : Properties) : Node :=
  ⟨⟨uuid⟩, graphId, Std.ExtTreeSet.ofList (labels.map .mk) _, props⟩

/-- A node is created under the UUID that is drawn. -/
theorem effect_createNode (hnode : env.rt.bin.node.RoundTrips) (hc : Good env graphId U c)
    (hfresh : Fresh U c'.drawn) {labels : List String} {properties : List (String × Expression)}
    {rs : ResultSet} (hgo : (execCreateNode env graphId labels properties).Goes c rs c') :
    ∃ props, evaluateProperties env properties = .ok props ∧
      (∀ n ∈ (graphOf env.rt.bin c.state graphId).nodes, n.id ≠ ⟨c.left.head.uuid⟩) ∧
      Effect env graphId U c c' ((graphOf env.rt.bin c.state graphId).putNode
        (createdNode graphId c.left.head.uuid labels props)) := by
  rw [execCreateNode] at hgo
  simp only [goes_bind, goes_drawn, goes_ofExcept, goes_call, goes_report, goes_pure] at hgo
  obtain ⟨_, _, ⟨rfl, rfl⟩, props, _, ⟨hprops, rfl⟩, _, _, ⟨hok, rfl⟩, _, c₄, hreport, _, _, hindex, -,
    rfl⟩ := hgo
  have hdrawn : c.drawn ++ [c.left.head] <+: c'.drawn := by
    have hlast := hindex.drawn_isPrefix
    rwa [hreport] at hlast
  have hnew := hc.notMem_uuids (hfresh.of_isPrefix hdrawn)
  have hstored : Effect env graphId U c c₄ ((graphOf env.rt.bin c.state graphId).putNode
      (createdNode graphId c.left.head.uuid labels props)) := by
    subst hreport
    have hunused : ∀ n ∈ (graphOf env.rt.bin c.state graphId).nodes, n.id ≠ ⟨c.left.head.uuid⟩ :=
      fun n hn hid => hnew (.inl ⟨n, hn, by rw [hid]⟩)
    refine .of_report (r := ⟨1, 0, 0, 0, 0⟩) hc (Becomes.putNode hnode hc.sound trivial hok)
      (putNode_keeps hnode trivial hc.sound).exec (List.prefix_append _ _) (fun u hu => ?_) rfl ?_ rfl
    · rcases PropertyGraph.uuids_putNode_subset _ hu with rfl | hold
      · exact .inr (by simp [createdNode])
      · exact .inl hold
    · exact KeyedSet.count_put_new hunused
  have hlast := effect_indexNodeOnWrite hstored.good hindex
  rw [hstored.becomes.graph] at hlast
  exact ⟨props, hprops, fun n hn hid => hnew (.inl ⟨n, hn, by rw [hid]⟩), hstored.trans hlast⟩

theorem goes_resolveEndpoint {what var : String} {text : Option String} {s : String} :
    (resolveEndpoint what var text).Goes c s c' ↔ text = some s ∧ c' = c := by
  cases text with
  | none => simp [resolveEndpoint, not_goes_fail]
  | some s' => simp [resolveEndpoint, goes_pure]

/-- The edge is one that `INSERT` creates for the row. -/
structure CreatesEdge (env : Env) (graphId : GraphId) (sourceVar targetVar label : String)
    (properties : List (String × Expression)) (record : Record) (e : Edge) : Prop where
  graph : e.graphId = graphId
  source : ∃ s, sourceId record sourceVar = some s ∧ env.parseUuid s = .ok e.source.uuid
  target : ∃ t, endpointId record targetVar = some t ∧ env.parseUuid t = .ok e.target.uuid
  label : e.label = ⟨label⟩
  properties : evaluateProperties env properties = .ok e.properties

/-- An edge is created under the UUID that is drawn, between the nodes that the two names resolve to. -/
theorem effect_createEdgeRow (hedge : env.rt.bin.edge.RoundTrips) (hc : Good env graphId U c)
    (hfresh : Fresh U c'.drawn) {sourceVar targetVar label : String}
    {properties : List (String × Expression)} {record : Record} {row : List Value}
    (hgo : (createEdgeRow env graphId sourceVar targetVar label properties record).Goes c row c') :
    ∃ e, CreatesEdge env graphId sourceVar targetVar label properties record e ∧
      (∀ e' ∈ (graphOf env.rt.bin c.state graphId).edges, e'.id ≠ e.id) ∧
      Effect env graphId U c c' ((graphOf env.rt.bin c.state graphId).putEdge e) := by
  rw [createEdgeRow] at hgo
  simp only [goes_bind, goes_resolveEndpoint, goes_parseId, goes_drawn, goes_ofExcept, goes_call,
    goes_report, goes_pure, and_assoc, exists_and_left, exists_eq_left] at hgo
  obtain ⟨s, hs, t, ht, u, hu, v, hv, _, rfl, props, hprops, _, hok, -, _, rfl⟩ := hgo
  have hnew := hc.notMem_uuids hfresh
  have hunused : ∀ e ∈ (graphOf env.rt.bin c.state graphId).edges, e.id ≠ ⟨c.left.head.uuid⟩ :=
    fun e he hid => hnew (.inr ⟨e, he, by rw [hid]⟩)
  refine ⟨⟨⟨c.left.head.uuid⟩, graphId, ⟨u⟩, ⟨v⟩, ⟨label⟩, props⟩,
    ⟨rfl, ⟨s, hs, hu⟩, ⟨t, ht, hv⟩, rfl, hprops⟩, hunused, ?_⟩
  refine .of_report (r := ⟨0, 0, 1, 0, 0⟩) hc (Becomes.putEdge hedge hc.sound trivial hok)
    (putEdge_keeps hedge trivial hc.sound).exec (List.prefix_append _ _) (fun w hw => ?_) rfl rfl ?_
  · rcases PropertyGraph.uuids_putEdge_subset _ hw with rfl | hold
    · exact .inr (by simp)
    · exact .inl hold
  · exact KeyedSet.count_put_new hunused

/-- Each row gets one edge, under an identifier of its own. -/
theorem effect_createEdgeRows (hedge : env.rt.bin.edge.RoundTrips) (hc : Good env graphId U c)
    (hfresh : Fresh U c'.drawn) {sourceVar targetVar label : String}
    {properties : List (String × Expression)} {records : List Record} {rows : List (List Value)}
    (hgo : (createEdgeRows env graphId sourceVar targetVar label properties records).Goes c rows c') :
    ∃ es, List.Forall₂ (CreatesEdge env graphId sourceVar targetVar label properties) records es ∧
      (es.map Edge.id).Nodup ∧
      (∀ e ∈ es, ∀ e' ∈ (graphOf env.rt.bin c.state graphId).edges, e'.id ≠ e.id) ∧
      Effect env graphId U c c' (es.foldl PropertyGraph.putEdge (graphOf env.rt.bin c.state graphId)) := by
  induction records generalizing c rows with
  | nil =>
    obtain ⟨-, rfl⟩ := goes_pure.mp hgo
    exact ⟨[], .nil, List.nodup_nil, by simp, .refl hc⟩
  | cons record records ih =>
    rw [createEdgeRows] at hgo
    simp only [goes_bind, goes_pure] at hgo
    obtain ⟨row, c₁, hfirst, rows', c₂, hrest, -, rfl⟩ := hgo
    obtain ⟨e, hcreates, hnew, hhead⟩ :=
      effect_createEdgeRow hedge hc (hfresh.of_isPrefix hrest.drawn_isPrefix) hfirst
    obtain ⟨es, hall, hnodup, hnews, htail⟩ := ih hhead.good hrest
    rw [hhead.becomes.graph] at hnews htail
    refine ⟨e :: es, .cons hcreates hall, ?_, ?_, hhead.trans htail⟩
    · rw [List.map_cons, List.nodup_cons]
      refine ⟨fun hmem => ?_, hnodup⟩
      obtain ⟨e', he', hid⟩ := List.mem_map.mp hmem
      exact hnews e' he' e (.inl rfl) hid.symm
    · intro e' he' e'' he''
      rcases List.mem_cons.mp he' with rfl | he'
      · exact hnew e'' he''
      -- an edge that was stored is stored still, unless the new one has its identifier
      · exact hnews e' he' e'' (.inr ⟨he'', hnew e'' he''⟩)

end Creating

/-! ## Assigning -/

section Assigning

variable {env : Env} {graphId : GraphId} {U : Set Uuid} {c c' : Config Db Draw ExecStats}

/-- The entity that a value stands for. -/
def entityOf (env : Env) : Value → Option EntityId
  | .node id _ _ => (env.parseUuid id).toOption.map fun u => .node ⟨u⟩
  | .edge id _ _ _ _ => (env.parseUuid id).toOption.map fun u => .edge ⟨u⟩
  | _ => none

/-- The assignment of a value to a property of each entity among some values. -/
def assignmentsTo (env : Env) (property : String) (val : Value) (values : List Value) : List Assignment :=
  (values.filterMap (entityOf env)).map fun entity => ⟨entity, property, val⟩

/-- Putting a stored node with one property changed. -/
theorem effect_putNode (hnode : env.rt.bin.node.RoundTrips) (hc : Good env graphId U c) {node : Node}
    (hstored : HasNode env.rt.bin c.state graphId node) {property : String} {val : Value} {x : Unit}
    (hok : (StorageEngine.putNode env.rt.bin
      { node with properties := node.properties.insert property val } c.state).result = .ok x) :
    Effect env graphId U c { c with state := Journaled.exec (StorageEngine.putNode env.rt.bin
      { node with properties := node.properties.insert property val }) c.state }
      ((graphOf env.rt.bin c.state graphId).assign [⟨.node node.id, property, val⟩]) := by
  obtain rfl : node.graphId = graphId := (hc.sound.node_id (getNode_eq_ok.mp hstored)).1
  apply Effect.of_call hc
  · rw [← PropertyGraph.putNode_eq_assign (mem_nodes_graphOf.mpr hstored)]
    exact Becomes.putNode hnode hc.sound trivial hok
  · exact (putNode_keeps hnode trivial hc.sound).exec
  · exact List.prefix_refl _
  · exact PropertyGraph.uuids_assign_subset _
  · rfl
  · exact PropertyGraph.count_assign _

theorem effect_putEdge (hedge : env.rt.bin.edge.RoundTrips) (hc : Good env graphId U c) {edge : Edge}
    (hstored : HasEdge env.rt.bin c.state graphId edge) {property : String} {val : Value} {x : Unit}
    (hok : (StorageEngine.putEdge env.rt.bin
      { edge with properties := edge.properties.insert property val } c.state).result = .ok x) :
    Effect env graphId U c { c with state := Journaled.exec (StorageEngine.putEdge env.rt.bin
      { edge with properties := edge.properties.insert property val }) c.state }
      ((graphOf env.rt.bin c.state graphId).assign [⟨.edge edge.id, property, val⟩]) := by
  obtain rfl : edge.graphId = graphId := (hc.sound.edge_id (getEdge_eq_ok.mp hstored)).1
  apply Effect.of_call hc
  · rw [← PropertyGraph.putEdge_eq_assign (mem_edges_graphOf.mpr hstored)]
    exact Becomes.putEdge hedge hc.sound trivial hok
  · exact (putEdge_keeps hedge trivial hc.sound).exec
  · exact List.prefix_refl _
  · exact PropertyGraph.uuids_assign_subset _
  · rfl
  · exact PropertyGraph.count_assign _

/-- The count of changed properties is no part of the balance. -/
theorem effect_reportSet (hc : Good env graphId U c) : Effect env graphId U c
    { c with reports := c.reports ++ [⟨0, 0, 0, 0, 1⟩] } (graphOf env.rt.bin c.state graphId) :=
  .of_report hc .refl hc.sound (List.prefix_refl _) (fun _ hu => .inl hu) rfl rfl rfl

theorem effect_setNodeProperty (hnode : env.rt.bin.node.RoundTrips) (hc : Good env graphId U c)
    {id property : String} {val : Value} {x : Unit}
    (hgo : (setNodeProperty env graphId id property val).Goes c x c') :
    ∃ u, env.parseUuid id = .ok u ∧ Effect env graphId U c c'
      ((graphOf env.rt.bin c.state graphId).assign [⟨.node ⟨u⟩, property, val⟩]) := by
  rw [setNodeProperty] at hgo
  simp only [goes_bind, goes_parseId, goes_query, goes_call, goes_report, and_assoc, exists_and_left,
    exists_eq_left] at hgo
  obtain ⟨u, hu, node, hget, _, c₁, hunindex, _, hok, _, c₂, hindex, rfl⟩ := hgo
  obtain ⟨hstored, hid⟩ := hc.sound.hasNode_of_getNode hget
  have hbefore := effect_unindexNodeOnDelete hc hunindex
  have hstored₁ : HasNode env.rt.bin c₁.state graphId node := by
    rw [← mem_nodes_graphOf, hbefore.becomes.graph]
    exact hstored
  have hput := effect_putNode hnode hbefore.good hstored₁ hok
  rw [hbefore.becomes.graph] at hput
  have hafter := effect_indexNodeOnWrite hput.good hindex
  rw [hput.becomes.graph] at hafter
  have hlast := effect_reportSet hafter.good
  rw [hafter.becomes.graph] at hlast
  refine ⟨u, hu, ?_⟩
  rw [← hid]
  exact ((hbefore.trans hput).trans hafter).trans hlast

theorem effect_setEdgeProperty (hedge : env.rt.bin.edge.RoundTrips) (hc : Good env graphId U c)
    {id property : String} {val : Value} {x : Unit}
    (hgo : (setEdgeProperty env graphId id property val).Goes c x c') :
    ∃ u, env.parseUuid id = .ok u ∧ Effect env graphId U c c'
      ((graphOf env.rt.bin c.state graphId).assign [⟨.edge ⟨u⟩, property, val⟩]) := by
  rw [setEdgeProperty] at hgo
  simp only [goes_bind, goes_parseId, goes_query, goes_call, goes_report, and_assoc, exists_and_left,
    exists_eq_left] at hgo
  obtain ⟨u, hu, edge, hget, _, hok, rfl⟩ := hgo
  obtain ⟨hstored, hid⟩ := hc.sound.hasEdge_of_getEdge hget
  have hput := effect_putEdge hedge hc hstored hok
  have hlast := effect_reportSet hput.good
  rw [hput.becomes.graph] at hlast
  refine ⟨u, hu, ?_⟩
  rw [← hid]
  exact hput.trans hlast

/-- The entities among the values get the property, one after the other. -/
theorem effect_setEntities (hnode : env.rt.bin.node.RoundTrips) (hedge : env.rt.bin.edge.RoundTrips)
    (hc : Good env graphId U c) {property : String} {val : Value} {values : List Value} {k : Nat}
    (hgo : (setEntities env graphId property val values).Goes c k c') :
    Effect env graphId U c c' ((graphOf env.rt.bin c.state graphId).assign
      (assignmentsTo env property val values)) := by
  induction values generalizing c k with
  | nil =>
    obtain ⟨-, rfl⟩ := goes_pure.mp hgo
    rw [assignmentsTo, List.filterMap_nil, List.map_nil, PropertyGraph.assign_nil]
    exact .refl hc
  | cons value values ih =>
    cases value with
    | node id labels properties =>
      obtain ⟨_, c₁, hfirst, hrest⟩ := goes_bind.mp hgo
      obtain ⟨k', c₂, hrest, hlast⟩ := goes_bind.mp hrest
      obtain ⟨-, rfl⟩ := goes_pure.mp hlast
      obtain ⟨u, hu, heffect⟩ := effect_setNodeProperty hnode hc hfirst
      have htail := ih heffect.good hrest
      rw [heffect.becomes.graph, ← PropertyGraph.assign_append] at htail
      have hhead : assignmentsTo env property val (.node id labels properties :: values) =
          [⟨.node ⟨u⟩, property, val⟩] ++ assignmentsTo env property val values := by
        simp [assignmentsTo, entityOf, hu, Except.toOption]
      rw [hhead]
      exact heffect.trans htail
    | edge id label sourceId targetId properties =>
      obtain ⟨_, c₁, hfirst, hrest⟩ := goes_bind.mp hgo
      obtain ⟨k', c₂, hrest, hlast⟩ := goes_bind.mp hrest
      obtain ⟨-, rfl⟩ := goes_pure.mp hlast
      obtain ⟨u, hu, heffect⟩ := effect_setEdgeProperty hedge hc hfirst
      have htail := ih heffect.good hrest
      rw [heffect.becomes.graph, ← PropertyGraph.assign_append] at htail
      have hhead : assignmentsTo env property val
          (.edge id label sourceId targetId properties :: values) =
            [⟨.edge ⟨u⟩, property, val⟩] ++ assignmentsTo env property val values := by
        simp [assignmentsTo, entityOf, hu, Except.toOption]
      rw [hhead]
      exact heffect.trans htail
    | _ => exact ih hc hgo

/-- The assignments that an item makes for one record. -/
def recordAssignments (env : Env) (target : Option String) (property : String) (value : Expression)
    (record : Record) : Except ExecError (List Assignment) := do
  let val ← evaluate env record value
  pure (assignmentsTo env property val (setTargets target record))

theorem effect_setRecords (hnode : env.rt.bin.node.RoundTrips) (hedge : env.rt.bin.edge.RoundTrips)
    (hc : Good env graphId U c) {target : Option String} {property : String} {value : Expression}
    {records : List Record} {k : Nat}
    (hgo : (setRecords env graphId target property value records).Goes c k c') :
    ∃ ass, records.mapM (recordAssignments env target property value) = .ok ass ∧
      Effect env graphId U c c' ((graphOf env.rt.bin c.state graphId).assign ass.flatten) := by
  induction records generalizing c k with
  | nil =>
    obtain ⟨-, rfl⟩ := goes_pure.mp hgo
    refine ⟨[], rfl, ?_⟩
    rw [List.flatten_nil, PropertyGraph.assign_nil]
    exact .refl hc
  | cons record records ih =>
    rw [setRecords] at hgo
    simp only [goes_bind, goes_ofExcept, goes_pure, and_assoc, exists_and_left, exists_eq_left] at hgo
    obtain ⟨val, hval, _, c₁, hfirst, _, c₂, hrest, -, rfl⟩ := hgo
    have hhead := effect_setEntities hnode hedge hc hfirst
    obtain ⟨ass, hass, htail⟩ := ih hhead.good hrest
    rw [hhead.becomes.graph, ← PropertyGraph.assign_append] at htail
    refine ⟨assignmentsTo env property val (setTargets target record) :: ass, ?_, hhead.trans htail⟩
    refine List.mapM_cons_eq_ok.mpr ⟨_, _, ?_, hass, rfl⟩
    exact Except.bind_eq_ok.mpr ⟨val, hval, rfl⟩

end Assigning

/-! ## Removing -/

section Removing

variable {env : Env} {graphId : GraphId} {U : Set Uuid} {c c' : Config Db Draw ExecStats}

/-- The identifier of an edge value. -/
def asEdgeId : Value → Option String
  | .edge id _ _ _ _ => some id
  | _ => none

/-- What the values stand for, apart from those whose text was seen. -/
def targeted {ι : Type} (env : Env) (mk : Uuid → ι) (textOf : Value → Option String) (seen : List String)
    (values : List Value) : Set ι :=
  {i | ∃ v ∈ values, ∃ id, textOf v = some id ∧ id ∉ seen ∧ ∃ u, env.parseUuid id = .ok u ∧ mk u = i}

section Targeted

variable {ι : Type} {mk : Uuid → ι} {textOf : Value → Option String} {seen : List String} {v : Value}
  {values : List Value}

theorem targeted_nil : targeted env mk textOf seen [] = ∅ := by
  simp [targeted]

/-- A value that stands for nothing new. -/
theorem targeted_cons_other (hv : ∀ id, textOf v = some id → id ∈ seen) :
    targeted env mk textOf seen (v :: values) = targeted env mk textOf seen values := by
  ext i
  constructor
  · rintro ⟨w, hw, id, hid, hnew, hparse⟩
    rcases List.mem_cons.mp hw with rfl | hw
    · exact absurd (hv id hid) hnew
    · exact ⟨w, hw, id, hid, hnew, hparse⟩
  · rintro ⟨w, hw, htargeted⟩
    exact ⟨w, List.mem_cons_of_mem _ hw, htargeted⟩

theorem targeted_cons {id : String} {u : Uuid} (hid : textOf v = some id) (hnew : id ∉ seen)
    (hu : env.parseUuid id = .ok u) :
    targeted env mk textOf seen (v :: values) = {mk u} ∪ targeted env mk textOf (id :: seen) values := by
  ext i
  constructor
  · rintro ⟨w, hw, id', hid', hnew', u', hu', rfl⟩
    by_cases heq : id' = id
    · refine .inl ?_
      rw [heq, hu] at hu'
      cases hu'
      rfl
    · rcases List.mem_cons.mp hw with rfl | hw
      · rw [hid] at hid'
        cases hid'
        exact absurd rfl heq
      · exact .inr ⟨w, hw, id', hid', by simp [heq, hnew'], u', hu', rfl⟩
  · rintro (rfl | ⟨w, hw, id', hid', hnew', htargeted⟩)
    · exact ⟨v, List.mem_cons_self, id, hid, hnew, u, hu, rfl⟩
    · exact ⟨w, List.mem_cons_of_mem _ hw, id', hid', fun h => hnew' (List.mem_cons_of_mem _ h), htargeted⟩

end Targeted

/-- An edge that is deleted was stored. -/
theorem effect_deleteEdge (hc : Good env graphId U c) {i : EdgeId} {x : Unit}
    (hok : (StorageEngine.deleteEdge env.rt.bin graphId i c.state).result = .ok x) :
    Effect env graphId U c { c with
      state := Journaled.exec (StorageEngine.deleteEdge env.rt.bin graphId i) c.state
      reports := c.reports ++ [⟨0, 0, 0, 1, 0⟩] }
      ((graphOf env.rt.bin c.state graphId).removeEdges {i}) := by
  have hstored : ∃ edge, StorageEngine.getEdge env.rt.bin c.state graphId i = .ok edge := by
    rcases deleteEdge_cases env.rt.bin (g := graphId) i c.state with
      ⟨e, -, herror, -⟩ | ⟨edge, hedge, -, -⟩
    · rw [herror] at hok
      cases hok
    · exact ⟨edge, hedge⟩
  obtain ⟨edge, hget⟩ := hstored
  obtain ⟨hedge, rfl⟩ := hc.sound.hasEdge_of_getEdge hget
  apply Effect.of_report hc (Becomes.deleteEdge hc.sound edge.id)
  · exact (deleteEdge_keeps hc.sound).exec
  · exact List.prefix_refl _
  · exact fun u hu => .inl (PropertyGraph.uuids_removeEdges_subset _ hu)
  · rfl
  · rfl
  · exact PropertyGraph.count_removeEdge hedge

theorem effect_deleteEdges (hc : Good env graphId U c) {seen : List String} {values : List Value} {k : Nat}
    (hgo : (deleteEdges env graphId seen values).Goes c k c') :
    Effect env graphId U c c' ((graphOf env.rt.bin c.state graphId).removeEdges
      (targeted env .mk asEdgeId seen values)) := by
  induction values generalizing c k seen with
  | nil =>
    obtain ⟨-, rfl⟩ := goes_pure.mp hgo
    rw [targeted_nil, PropertyGraph.removeEdges_empty]
    exact .refl hc
  | cons value values ih =>
    cases value with
    | edge id label sourceId targetId properties =>
      rw [deleteEdges] at hgo
      split at hgo
      · rename_i hseen
        rw [targeted_cons_other]
        · exact ih hc hgo
        · intro id' hid'
          cases hid'
          exact hseen
      · rename_i hseen
        simp only [goes_bind, goes_parseId, goes_call, goes_report, goes_pure, and_assoc, exists_and_left,
          exists_eq_left] at hgo
        obtain ⟨u, hu, _, hok, _, _, _, hrest, -, rfl⟩ := hgo
        have hhead := effect_deleteEdge hc hok
        have htail := ih hhead.good hrest
        rw [hhead.becomes.graph, PropertyGraph.removeEdges_removeEdges] at htail
        rw [targeted_cons rfl hseen hu]
        exact hhead.trans htail
    | _ =>
      rw [targeted_cons_other]
      · exact ih hc hgo
      · intro id' hid'
        cases hid'

/-- The identifiers that are counted are those of the edges at the node, each once. -/
theorem goes_countIncidentEdges (hc : Good env graphId U c) {i : NodeId} {k : Nat}
    (hgo : (countIncidentEdges env graphId i).Goes c k c') : c' = c ∧ ∃ is : List EdgeId, is.Nodup ∧
      is.length = k ∧ ∀ j, j ∈ is ↔
        ∃ e ∈ (graphOf env.rt.bin c.state graphId).edges, (e.source = i ∨ e.target = i) ∧ e.id = j := by
  rw [countIncidentEdges] at hgo
  simp only [goes_bind, goes_query, goes_pure, and_assoc, exists_and_left, exists_eq_left] at hgo
  obtain ⟨out, hout, inc, hinc, rfl, rfl⟩ := hgo
  have hall : Selects (fun _ => True) none (matchesLabel none) := selects_matchesLabel (by simp)
  obtain ⟨⟨out', hout', -, hmemOut⟩, ⟨inc', hinc', -, hmemInc⟩⟩ :=
    exists_adjacent hc.sound graphId i none hall
  rw [hout] at hout'
  rw [hinc] at hinc'
  cases hout'
  cases hinc'
  refine ⟨rfl, _, List.nodup_dedup _, rfl, fun j => ?_⟩
  simp only [List.mem_dedup, List.mem_map, List.mem_append, hmemOut, hmemInc, matchesLabel, and_true,
    ← and_or_left, and_assoc]
  rfl

/-- A node that is deleted was stored, and the edges that go with it were counted. -/
theorem effect_deleteNode (hc : Good env graphId U c) {i : NodeId} {x : Unit}
    (hgo : (countIncidentEdges env graphId i >>= fun incident =>
      call (StorageEngine.deleteNode env.rt.bin graphId i) asInternal >>= fun _ =>
        (.report ⟨0, 1, 0, incident, 0⟩ : ExecM Unit)).Goes c x c') :
    (∃ n ∈ (graphOf env.rt.bin c.state graphId).nodes, n.id = i) ∧
      Effect env graphId U c c' ((graphOf env.rt.bin c.state graphId).removeNodes {i}) := by
  simp only [goes_bind, goes_call, goes_report, and_assoc, exists_and_left, exists_eq_left] at hgo
  obtain ⟨k, c₁, hcount, _, hok, rfl⟩ := hgo
  obtain ⟨rfl, is, hnodup, rfl, hmem⟩ := goes_countIncidentEdges hc hcount
  obtain ⟨node, hstored, rfl⟩ := (deleteNode_ok_iff hc.sound i).mp hok
  obtain ⟨hnodes, hedges⟩ := PropertyGraph.count_removeNode (mem_nodes_graphOf.mpr hstored) hnodup hmem
  refine ⟨⟨node, hstored, rfl⟩, ?_⟩
  apply Effect.of_report hc (Becomes.deleteNode hc.sound hok)
  · exact (deleteNode_keeps hc.sound).exec
  · exact List.prefix_refl _
  · exact fun u hu => .inl (PropertyGraph.uuids_removeNodes_subset _ hu)
  · rfl
  · exact hnodes
  · exact hedges

theorem effect_deleteOneNode (hc : Good env graphId U c) {id : String} {x : Unit}
    (hgo : (deleteOneNode env graphId id).Goes c x c') :
    ∃ u, env.parseUuid id = .ok u ∧ (∃ n ∈ (graphOf env.rt.bin c.state graphId).nodes, n.id = ⟨u⟩) ∧
      Effect env graphId U c c' ((graphOf env.rt.bin c.state graphId).removeNodes {⟨u⟩}) := by
  rw [deleteOneNode] at hgo
  simp only [goes_bind, goes_parseId, goes_tryQuery, and_assoc, exists_and_left, exists_eq_left] at hgo
  obtain ⟨u, hu, found, -, hrest⟩ := hgo
  refine ⟨u, hu, ?_⟩
  cases found with
  | ok node =>
    obtain ⟨_, c₁, hunindex, hrest⟩ := goes_bind.mp hrest
    have hbefore := effect_unindexNodeOnDelete hc hunindex
    obtain ⟨hstored, hlast⟩ := effect_deleteNode hbefore.good hrest
    rw [hbefore.becomes.graph] at hstored hlast
    exact ⟨hstored, hbefore.trans hlast⟩
  | error e => exact effect_deleteNode hc hrest

/-- The nodes that are deleted were stored. -/
theorem effect_deleteNodes (hc : Good env graphId U c) {seen : List String} {values : List Value} {k : Nat}
    (hgo : (deleteNodes env graphId seen values).Goes c k c') :
    (∀ i ∈ targeted env .mk Value.asNodeId seen values,
      ∃ n ∈ (graphOf env.rt.bin c.state graphId).nodes, n.id = i) ∧
    Effect env graphId U c c' ((graphOf env.rt.bin c.state graphId).removeNodes
      (targeted env .mk Value.asNodeId seen values)) := by
  induction values generalizing c k seen with
  | nil =>
    obtain ⟨-, rfl⟩ := goes_pure.mp hgo
    rw [targeted_nil, PropertyGraph.removeNodes_empty]
    exact ⟨fun i hi => absurd hi (Set.notMem_empty i), .refl hc⟩
  | cons value values ih =>
    cases value with
    | node id labels properties =>
      rw [deleteNodes] at hgo
      split at hgo
      · rename_i hseen
        rw [targeted_cons_other]
        · exact ih hc hgo
        · intro id' hid'
          cases hid'
          exact hseen
      · rename_i hseen
        simp only [goes_bind, goes_pure] at hgo
        obtain ⟨_, c₁, hfirst, _, c₂, hrest, -, rfl⟩ := hgo
        obtain ⟨u, hu, hstored, hhead⟩ := effect_deleteOneNode hc hfirst
        obtain ⟨hrests, htail⟩ := ih hhead.good hrest
        rw [hhead.becomes.graph] at hrests
        rw [hhead.becomes.graph, PropertyGraph.removeNodes_removeNodes] at htail
        rw [targeted_cons rfl hseen hu]
        refine ⟨?_, hhead.trans htail⟩
        rintro i (rfl | hi)
        · exact hstored
        · obtain ⟨n, hn, hid⟩ := hrests i hi
          exact ⟨n, hn.1, hid⟩
    | _ =>
      rw [targeted_cons_other]
      · exact ih hc hgo
      · intro id' hid'
        cases hid'

/-- **What a deletion does**: the edges that are targeted are removed, and the nodes that are targeted
together with every edge at them. -/
theorem effect_execDeleteNodes (hc : Good env graphId U c) {rs answer : ResultSet}
    {targets : List String} (hgo : (execDeleteNodes env graphId rs targets).Goes c answer c') :
    (∀ i ∈ targeted env .mk Value.asNodeId [] (rs.records.flatMap (valuesToCheck targets)),
      ∃ n ∈ (graphOf env.rt.bin c.state graphId).nodes, n.id = i) ∧
    Effect env graphId U c c' (((graphOf env.rt.bin c.state graphId).removeEdges
      (targeted env .mk asEdgeId [] (rs.records.flatMap (valuesToCheck targets)))).removeNodes
        (targeted env .mk Value.asNodeId [] (rs.records.flatMap (valuesToCheck targets)))) := by
  rw [execDeleteNodes] at hgo
  simp only [goes_bind, goes_pure] at hgo
  obtain ⟨_, c₁, hedges, _, c₂, hnodes, -, rfl⟩ := hgo
  have hfirst := effect_deleteEdges hc hedges
  obtain ⟨hstored, hlast⟩ := effect_deleteNodes hfirst.good hnodes
  rw [hfirst.becomes.graph] at hstored hlast
  exact ⟨hstored, hfirst.trans hlast⟩

end Removing

/-! ## A person -/

/-- `MATCH (n:Person)`. -/
def matchAPerson : MatchStatement := ⟨none, [nodePattern (some "n") "Person"], none⟩

/-- The person of `insertWithP`, as the row of the `MATCH`. -/
def rowOfPerson : ResultSet := nodeResultSet ["p"] (some "n") [withP]

end Synaptica.Exec
