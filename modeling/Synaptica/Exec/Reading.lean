import Synaptica.Exec.Columns
import Synaptica.Lib.Enumerate
import Synaptica.Storage.Stored

/-!
# What scans and expand steps find

A scan and an expand step only read, so running one alone is a function of the store and of the draws
(`run_execScan`, `run_execExpand`). On a consistent store the scan finds exactly the stored nodes that
carry the labels, and an expand step finds, for each row, exactly the edges at the row's node together
with the nodes behind them.
-/

namespace Synaptica.Exec

open Gql Storage

variable (env : Env) (graphId : GraphId)

section Looks

open Process

/-! ## Reads as functions of the store -/

theorem looks_query {α : Type} (f : Db → StorageResult α) (wrap : StorageError → ExecError) :
    (query f wrap).Looks fun db => (f db).mapError wrap := looks_read _

theorem looks_tryQuery {α : Type} (f : Db → StorageResult α) :
    (tryQuery f).Looks fun db => .ok (f db) := looks_read _

theorem looks_parseId (what s : String) : (parseId env what s).Looks fun _ =>
    (env.parseUuid s).mapError fun e => .internal (what ++ e) := by
  unfold parseId
  cases env.parseUuid s with
  | ok u => exact looks_pure u
  | error e => exact looks_fail _

theorem mem_keySet {props : List Properties} {key : String} :
    key ∈ keySet props ↔ ∃ p ∈ props, key ∈ p := by
  rw [keySet, List.mem_dedup, List.mem_flatMap]
  refine exists_congr fun p => and_congr_right fun _ => ?_
  rw [List.mem_map, Std.ExtTreeMap.mem_iff_isSome_getElem?, Option.isSome_iff_exists]
  constructor
  · rintro ⟨e, he, rfl⟩
    exact ⟨e.2, (OrderedMap.mem_toList p).mp he⟩
  · rintro ⟨v, hv⟩
    exact ⟨(key, v), (OrderedMap.mem_toList p).mpr hv, rfl⟩

/-- The result set of a scan: the draw orders the property keys. -/
def scanResult (db : Db) (labels : List String) (var : Option String) (draw : Draw) :
    Except ExecError ResultSet := do
  let nodes ← (scanWith env graphId db labels).mapError asStorageError
  pure (nodeResultSet (draw.order (keySet (nodes.map (·.properties)))) var nodes)

theorem result_execScan (labels : List String) (var : Option String) (ω : Stream' Draw) (db : Db) :
    ((execScan env graphId labels var).run ω db).result =
      scanResult env graphId db labels var ω.head := by
  rw [execScan, run_bind, looks_query, Ended.andThen, scanResult]
  dsimp only
  cases scanWith env graphId db labels <;> rfl

/-- The nodes of an index lookup that are still stored and have all of the labels. -/
def loadedNodes (labels : List String) (ids : List NodeId) (db : Db) : List Node :=
  ids.filterMap fun id =>
    match StorageEngine.getNode env.rt.bin db graphId id with
    | .ok node => if labels.all (hasLabel node) then some node else none
    | .error _ => none

theorem looks_loadNodes (labels : List String) (ids : List NodeId) :
    (loadNodes env graphId labels ids).Looks fun db => .ok (loadedNodes env graphId labels ids db) := by
  induction ids with
  | nil => exact looks_pure _
  | cons id ids ih =>
    intro ω db
    rw [loadNodes, run_bind, looks_tryQuery, Ended.andThen]
    dsimp only
    rw [run_bind, ih ω db, Ended.andThen, loadedNodes, List.filterMap_cons]
    dsimp only
    cases StorageEngine.getNode env.rt.bin db graphId id with
    | error e => rfl
    | ok node =>
      dsimp only
      split <;> rfl

/-- The nodes that an index scan finds, before the remaining predicate. -/
def indexScanNodes (indexName : String) (labels : List String) (lookupValues : List Expression) (db : Db) :
    Except ExecError (List Node) := do
  let indexes ← (IndexManager.listIndexes env.rt db graphId).mapError asStorageError
  let index ←
    match indexes.find? fun d => d.name == indexName with
    | some d => .ok d
    | none => .error (.internal ("index '" ++ indexName ++ "' not found"))
  let values ← evaluateAll env ⟨[], []⟩ lookupValues
  let ids ← (IndexManager.lookup env.rt db index values).mapError asStorageError
  pure (loadedNodes env graphId labels ids db)

variable {env graphId} in
/-- Whatever the index answers, the nodes are loaded by their ids. -/
theorem exists_ids_of_indexScanNodes {indexName : String} {labels : List String}
    {lookupValues : List Expression} {db : Db} {nodes : List Node}
    (h : indexScanNodes env graphId indexName labels lookupValues db = .ok nodes) :
    ∃ ids, nodes = loadedNodes env graphId labels ids db := by
  rw [indexScanNodes, Except.bind_eq_ok] at h
  obtain ⟨indexes, -, h⟩ := h
  dsimp only at h
  split at h
  · rw [Except.bind_eq_ok] at h
    obtain ⟨index, -, h⟩ := h
    simp only [Except.bind_eq_ok, Except.pure_eq_ok] at h
    obtain ⟨_, _, ids, _, h⟩ := h
    exact ⟨ids, h.symm⟩
  · cases h

/-- The result set of an index scan: the draw orders the property keys. -/
def indexScanResult (indexName : String) (labels : List String) (var : Option String)
    (lookupValues : List Expression) (remaining : Option Expression) (db : Db) (draw : Draw) :
    Except ExecError ResultSet := do
  let nodes ← indexScanNodes env graphId indexName labels lookupValues db
  let rs := nodeResultSet (draw.order (keySet (nodes.map (·.properties)))) var nodes
  match remaining with
  | some predicate => execFilter env rs predicate
  | none => pure rs

theorem result_execIndexScan (indexName : String) (labels : List String) (var : Option String)
    (lookupValues : List Expression) (remaining : Option Expression) (ω : Stream' Draw) (db : Db) :
    ((execIndexScan env graphId indexName labels var lookupValues remaining).run ω db).result =
      indexScanResult env graphId indexName labels var lookupValues remaining db ω.head := by
  rw [execIndexScan, run_bind, looks_query, Ended.andThen, indexScanResult, indexScanNodes]
  dsimp only
  cases IndexManager.listIndexes env.rt db graphId with
  | error e => rfl
  | ok indexes =>
    simp only [Except.mapError, Except.ok_bind]
    rw [run_bind, run_ofExcept, Ended.andThen]
    dsimp only
    cases indexes.find? (fun d => d.name == indexName) with
    | none => rfl
    | some index =>
      dsimp only
      rw [run_bind, run_ofExcept, Ended.andThen]
      dsimp only
      cases evaluateAll env ⟨[], []⟩ lookupValues with
      | error e => rfl
      | ok values =>
        simp only [Except.ok_bind]
        rw [run_bind, looks_query, Ended.andThen]
        dsimp only
        cases IndexManager.lookup env.rt db index values with
        | error e => rfl
        | ok ids =>
          simp only [Except.mapError, Except.ok_bind]
          rw [run_bind, looks_loadNodes, Ended.andThen]
          dsimp only
          cases remaining <;> rfl

/-- The edges at a node in the given direction. -/
def incidentEdges (nodeId : NodeId) (direction : Direction) (label : Option Label) (db : Db) :
    Except ExecError (List Edge) :=
  let outgoing := (StorageEngine.getOutgoingEdges env.rt.bin db graphId nodeId label).mapError asStorageError
  let incoming := (StorageEngine.getIncomingEdges env.rt.bin db graphId nodeId label).mapError asStorageError
  match direction with
  | .outgoing => outgoing
  | .incoming => incoming
  | .undirected => do
    let edges ← outgoing
    let more ← incoming
    pure (edges ++ more.filter fun e => !(edges.map (·.id)).contains e.id)

theorem looks_edgesAt (nodeId : NodeId) (direction : Direction) (label : Option Label) :
    (edgesAt env graphId nodeId direction label).Looks
      (incidentEdges env graphId nodeId direction label) := by
  cases direction with
  | outgoing => exact looks_query _ _
  | incoming => exact looks_query _ _
  | undirected =>
    exact looks_bind (looks_query _ _) fun _ => looks_bind (looks_query _ _) fun _ => looks_pure _

/-- The node behind an edge, when it is stored and has one of the required labels. -/
def behind (nodeId : NodeId) (direction : Direction) (targetLabels : List String) (db : Db)
    (edge : Edge) : Option (Edge × Node) :=
  match StorageEngine.getNode env.rt.bin db graphId (neighbour nodeId direction edge) with
  | .ok node =>
    if targetLabels.isEmpty || targetLabels.any (hasLabel node) then some (edge, node) else none
  | .error _ => none

/-- The source row with an edge and the node behind it. -/
def ExpandRow.ofHop (sourceValues : List Value) (hop : Edge × Node) : ExpandRow :=
  ⟨sourceValues, hop.1, hop.2⟩

theorem looks_expandEdges (nodeId : NodeId) (direction : Direction) (targetLabels : List String)
    (sourceValues : List Value) (edges : List Edge) :
    (expandEdges env graphId nodeId direction targetLabels sourceValues edges).Looks fun db =>
      .ok ((edges.filterMap (behind env graphId nodeId direction targetLabels db)).map
        (.ofHop sourceValues)) := by
  induction edges with
  | nil => exact looks_pure _
  | cons edge edges ih =>
    intro ω db
    rw [expandEdges, run_bind, looks_tryQuery, Ended.andThen]
    dsimp only
    rw [run_bind, ih ω db, Ended.andThen]
    cases htarget : StorageEngine.getNode env.rt.bin db graphId (neighbour nodeId direction edge) with
    | error e =>
      rw [List.filterMap_cons_none (by rw [behind, htarget])]
      rfl
    | ok node =>
      dsimp only
      split
      · rename_i hlabels
        rw [List.filterMap_cons_some (b := (edge, node)) (by rw [behind, htarget]; exact if_pos hlabels)]
        rfl
      · rename_i hlabels
        rw [List.filterMap_cons_none (by rw [behind, htarget]; exact if_neg hlabels)]
        rfl

/-- The text of the row's internal node id. -/
def nodeIdText (record : Record) : Except ExecError String :=
  match (record.get "__node_id").bind Value.asStr with
  | some s => .ok s
  | none => .error (.internal "missing __node_id in expand input")

/-- What one row is extended by. -/
def hopsOf (direction : Direction) (label : Option Label) (targetLabels : List String)
    (record : Record) (db : Db) : Except ExecError (List (Edge × Node)) := do
  let idStr ← nodeIdText record
  let uuid ← (env.parseUuid idStr).mapError fun e => ExecError.internal ("invalid node id: " ++ e)
  let edges ← incidentEdges env graphId ⟨uuid⟩ direction label db
  pure (edges.filterMap (behind env graphId ⟨uuid⟩ direction targetLabels db))

/-- The rows of an expand step, before they are laid out. -/
def expandedRows (direction : Direction) (label : Option Label) (targetLabels : List String) (db : Db) :
    List Record → Except ExecError (List ExpandRow)
  | [] => .ok []
  | record :: records => do
    let hops ← hopsOf env graphId direction label targetLabels record db
    let rest ← expandedRows direction label targetLabels db records
    pure (hops.map (.ofHop record.values) ++ rest)

theorem looks_expandRecords (direction : Direction) (label : Option Label)
    (targetLabels : List String) (records : List Record) :
    (expandRecords env graphId direction label targetLabels records).Looks
      fun db => expandedRows env graphId direction label targetLabels db records := by
  induction records with
  | nil => exact looks_pure _
  | cons record records ih =>
    have hlooks := looks_bind (looks_ofExcept (nodeIdText record)) fun s =>
      looks_bind (looks_parseId env "invalid node id: " s) fun uuid =>
      looks_bind (looks_edgesAt env graphId ⟨uuid⟩ direction label) fun edges =>
      looks_bind (looks_expandEdges env graphId ⟨uuid⟩ direction targetLabels record.values edges)
        fun rows => looks_bind ih fun rest => looks_pure (rows ++ rest)
    intro ω db
    refine (hlooks ω db).trans ?_
    dsimp only
    rw [expandedRows, hopsOf]
    congr 1
    simp only [bind_assoc]
    rfl

variable {env graphId} in
/-- A row that can be expanded carries a hidden id that can be read. -/
theorem exists_id_of_hopsOf {direction : Direction} {label : Option Label} {targetLabels : List String}
    {record : Record} {db : Db} {hops : List (Edge × Node)}
    (h : hopsOf env graphId direction label targetLabels record db = .ok hops) :
    ∃ s u, record.get "__node_id" = some (.string s) ∧ env.parseUuid s = .ok u := by
  simp only [hopsOf, Except.bind_eq_ok] at h
  obtain ⟨s, hs, u, hu, -⟩ := h
  refine ⟨s, u, ?_, ?_⟩
  · unfold nodeIdText at hs
    split at hs
    · rename_i text htext
      cases hs
      obtain ⟨x, hx, hstr⟩ := Option.bind_eq_some_iff.mp htext
      cases x <;> simp_all [Value.asStr]
    · cases hs
  · cases hparse : env.parseUuid s with
    | error msg =>
      rw [hparse] at hu
      cases hu
    | ok u' =>
      rw [hparse] at hu
      cases hu
      rfl

variable {env graphId} in
/-- Every row is expanded, and every expanded row is one of them with one of its hops. -/
theorem expandedRows_eq_ok {direction : Direction} {label : Option Label} {targetLabels : List String}
    {db : Db} {records : List Record} {rows : List ExpandRow}
    (h : expandedRows env graphId direction label targetLabels db records = .ok rows) :
    (∀ r ∈ records, ∃ hops, hopsOf env graphId direction label targetLabels r db = .ok hops) ∧
      ∀ row ∈ rows, ∃ r ∈ records, ∃ hop, row = .ofHop r.values hop := by
  induction records generalizing rows with
  | nil =>
    cases h
    simp
  | cons record records ih =>
    simp only [expandedRows, Except.bind_eq_ok, Except.pure_eq_ok] at h
    obtain ⟨hops, hhops, rest, hrest, rfl⟩ := h
    obtain ⟨hall, hrows⟩ := ih hrest
    refine ⟨List.forall_mem_cons.mpr ⟨⟨hops, hhops⟩, hall⟩, fun row hrow => ?_⟩
    rcases List.mem_append.mp hrow with hrow | hrow
    · obtain ⟨hop, -, rfl⟩ := List.mem_map.mp hrow
      exact ⟨record, List.mem_cons_self, hop, rfl⟩
    · obtain ⟨r, hr, hrow⟩ := hrows row hrow
      exact ⟨r, List.mem_cons_of_mem _ hr, hrow⟩

/-- The result set of an expand step: one draw orders the keys of the targets, the next those of the
edges. -/
def expandResult (input : ResultSet) (edgeLabel : String) (direction : Direction)
    (targetLabels : List String) (edgeVar targetVar : Option String) (db : Db) (draws : Draw × Draw) :
    Except ExecError ResultSet := do
  let label := if edgeLabel.isEmpty then none else some ⟨edgeLabel⟩
  let rows ← expandedRows env graphId direction label targetLabels db input.records
  pure (expandResultSet input.columns (draws.2.order (keySet (rows.map (·.edge.properties))))
    (draws.1.order (keySet (rows.map (·.target.properties)))) edgeVar targetVar rows)

theorem result_execExpand (input : ResultSet) (edgeLabel : String) (direction : Direction)
    (targetLabels : List String) (edgeVar targetVar : Option String) (ω : Stream' Draw) (db : Db) :
    ((execExpand env graphId input edgeLabel direction targetLabels edgeVar targetVar).run ω db).result =
      expandResult env graphId input edgeLabel direction targetLabels edgeVar targetVar db
        (ω.head, ω.tail.head) := by
  rw [execExpand, run_bind, looks_expandRecords, Ended.andThen, expandResult]
  dsimp only
  cases expandedRows env graphId direction _ targetLabels db input.records <;> rfl

end Looks

/-! ## On a consistent store -/

section Stored

variable {env graphId} {db : Db}

/-- The edge leads from `u` to `v` when it is followed in this direction. -/
def Leads (direction : Direction) (u : NodeId) (e : Edge) (v : NodeId) : Prop :=
  match direction with
  | .outgoing => e.source = u ∧ e.target = v
  | .incoming => e.target = u ∧ e.source = v
  | .undirected => (e.source = u ∧ e.target = v) ∨ (e.target = u ∧ e.source = v)

theorem leads_iff {direction : Direction} {u v : NodeId} {e : Edge} :
    Leads direction u e v ↔ (∃ w, Leads direction u e w) ∧ neighbour u direction e = v := by
  cases direction with
  | outgoing => simp [Leads, neighbour]
  | incoming => simp [Leads, neighbour]
  | undirected =>
    by_cases hsource : e.source = u
    · simp only [Leads, neighbour, hsource]
      grind
    · simp [Leads, neighbour, hsource]

theorem exists_incidentEdges {P : Node → Prop} {Q : Edge → Prop} (h : WellIndexed env.rt.bin P Q db)
    (u : NodeId) (direction : Direction) {label : Option Label} {q : Edge → Bool} (hq : Selects Q label q) :
    ∃ es, incidentEdges env graphId u direction label db = .ok es ∧ es.Enumerates fun e =>
      HasEdge env.rt.bin db graphId e ∧ q e ∧ ∃ v, Leads direction u e v := by
  obtain ⟨⟨out, hout, honodup, homem⟩, ⟨inc, hinc, hinodup, himem⟩⟩ :=
    exists_adjacent h graphId u label hq
  cases direction with
  | outgoing =>
    refine ⟨out, by rw [incidentEdges, hout]; rfl, honodup.of_map, fun e => ?_⟩
    simp [homem, Leads, and_comm]
  | incoming =>
    refine ⟨inc, by rw [incidentEdges, hinc]; rfl, hinodup.of_map, fun e => ?_⟩
    simp [himem, Leads, and_comm]
  | undirected =>
    refine ⟨out ++ inc.filter fun e => !(out.map (·.id)).contains e.id,
      by rw [incidentEdges, hout, hinc]; rfl, ?_, fun e => ?_⟩
    · rw [List.nodup_append]
      refine ⟨honodup.of_map, hinodup.of_map.filter _, ?_⟩
      rintro e he _ he' rfl
      have hseen := (List.mem_filter.mp he').2
      simp only [Bool.not_eq_true', List.contains_eq_mem, decide_eq_false_iff_not] at hseen
      exact hseen (List.mem_map_of_mem he)
    · -- an incoming edge that was seen among the outgoing ones is that edge
      have hseen : e ∈ inc → ((!(out.map (·.id)).contains e.id) = true ↔ e ∉ out) := by
        intro he
        simp only [Bool.not_eq_true', List.contains_eq_mem, decide_eq_false_iff_not, not_iff_not,
          List.mem_map]
        constructor
        · rintro ⟨e', he', hid⟩
          rwa [← HasEdge.eq_of_id ((homem e').mp he').1 ((himem e).mp he).1 hid]
        · exact fun he => ⟨e, he, rfl⟩
      rw [List.mem_append, List.mem_filter]
      constructor
      · rintro (he | ⟨he, -⟩)
        · obtain ⟨hstored, hsource, hmatches⟩ := (homem e).mp he
          exact ⟨hstored, hmatches, e.target, .inl ⟨hsource, rfl⟩⟩
        · obtain ⟨hstored, htarget, hmatches⟩ := (himem e).mp he
          exact ⟨hstored, hmatches, e.source, .inr ⟨htarget, rfl⟩⟩
      · rintro ⟨hstored, hmatches, v, ⟨hsource, -⟩ | ⟨htarget, -⟩⟩
        · exact .inl ((homem e).mpr ⟨hstored, hsource, hmatches⟩)
        · by_cases he : e ∈ out
          · exact .inl he
          · have hinc := (himem e).mpr ⟨hstored, htarget, hmatches⟩
            exact .inr ⟨hinc, (hseen hinc).mpr he⟩

/-- One hop of a pattern: a stored edge with the label, followed from `u` to a stored node with one of
the labels. -/
structure Hop (bin : Bincode) (db : Db) (g : GraphId) (direction : Direction) (label : Option Label)
    (targetLabels : List String) (u : NodeId) (hop : Edge × Node) : Prop where
  edge : HasEdge bin db g hop.1
  label : matchesLabel label hop.1
  leads : Leads direction u hop.1 hop.2.id
  node : HasNode bin db g hop.2
  labels : targetLabels = [] ∨ ∃ l ∈ targetLabels, hasLabel hop.2 l

theorem behind_eq_some {P : Node → Prop} {Q : Edge → Prop} (h : WellIndexed env.rt.bin P Q db)
    {u : NodeId} {direction : Direction} {targetLabels : List String} {edge : Edge} {hop : Edge × Node} :
    behind env graphId u direction targetLabels db edge = some hop ↔
      edge = hop.1 ∧ HasNode env.rt.bin db graphId hop.2 ∧ neighbour u direction edge = hop.2.id ∧
        (targetLabels = [] ∨ ∃ l ∈ targetLabels, hasLabel hop.2 l) := by
  unfold behind
  cases hget : StorageEngine.getNode env.rt.bin db graphId (neighbour u direction edge) with
  | error e =>
    simp only [reduceCtorEq, false_iff, not_and]
    rintro rfl hnode hid
    rw [HasNode, ← hid, hget] at hnode
    cases hnode
  | ok node =>
    have hid : node.id = neighbour u direction edge := (h.node_id (getNode_eq_ok.mp hget)).2
    have hlabels : (targetLabels.isEmpty || targetLabels.any (hasLabel node)) = true ↔
        targetLabels = [] ∨ ∃ l ∈ targetLabels, hasLabel node l := by simp
    constructor
    · intro hsome
      dsimp only at hsome
      split at hsome
      · rename_i hl
        cases hsome
        exact ⟨rfl, by rw [HasNode, hid, hget], hid.symm, hlabels.mp hl⟩
      · cases hsome
    · rintro ⟨rfl, hnode, hneighbour, hl⟩
      have hsame : node = hop.2 := by
        rw [HasNode, ← hneighbour, hget] at hnode
        cases hnode
        rfl
      subst hsame
      exact if_pos (hlabels.mpr hl)

/-- A row that carries the id of `u` is extended by the hops from `u`, each once. -/
theorem exists_hopsOf (h : Consistent env.rt.bin db) {u : NodeId} (direction : Direction)
    {label : Option Label} (hlabel : ∀ l ∈ label, l.Fits) (targetLabels : List String)
    {record : Record} {s : String} (hid : record.get "__node_id" = some (.string s))
    (hparse : env.parseUuid s = .ok u.uuid) :
    ∃ hs, hopsOf env graphId direction label targetLabels record db = .ok hs ∧
      hs.Enumerates (Hop env.rt.bin db graphId direction label targetLabels u) := by
  have hindexed := consistent_iff.mp h
  have hselects := selects_matchesLabel fun l hl => ⟨hlabel l hl, fun _ (he : Label.Fits _) => he⟩
  obtain ⟨es, hes, hmem⟩ := @exists_incidentEdges env graphId db _ _ hindexed u direction _ _ hselects
  refine ⟨es.filterMap (behind env graphId u direction targetLabels db), ?_, ?_⟩
  · have htext : nodeIdText record = .ok s := by
      rw [nodeIdText, hid]
      rfl
    simp only [hopsOf, htext, hparse, Except.mapError, hes, bind, Except.bind, pure, Except.pure]
  · refine (hmem.filterMap ?_).congr ?_
    · intro e e' hop he he'
      rw [((behind_eq_some hindexed).mp he).1, ((behind_eq_some hindexed).mp he').1]
    · intro hop
      constructor
      · rintro ⟨e, ⟨hstored, hmatches, htouches⟩, he⟩
        obtain ⟨rfl, hnode, hneighbour, hl⟩ := (behind_eq_some hindexed).mp he
        exact ⟨hstored, hmatches, leads_iff.mpr ⟨htouches, hneighbour⟩, hnode, hl⟩
      · rintro ⟨hstored, hmatches, hleads, hnode, hl⟩
        obtain ⟨htouches, hneighbour⟩ := leads_iff.mp hleads
        exact ⟨hop.1, ⟨hstored, hmatches, htouches⟩,
          (behind_eq_some hindexed).mpr ⟨rfl, hnode, hneighbour, hl⟩⟩

/-- When the hops of each row are those of some `H`, the expanded rows are the pairs of a row and one
of its hops. The rows are told apart by `as`. -/
theorem exists_expandedRows {α : Type} {direction : Direction} {label : Option Label}
    {targetLabels : List String} {R : α → Record → Prop} {H : α → Edge × Node → Prop}
    (hops : ∀ a r, R a r → ∃ hs, hopsOf env graphId direction label targetLabels r db = .ok hs ∧
      hs.Enumerates (H a)) {as : List α} {records : List Record} (h : List.Forall₂ R as records)
    (hnodup : as.Nodup) :
    ∃ rows pairs, expandedRows env graphId direction label targetLabels db records = .ok rows ∧
      pairs.Enumerates (fun p : α × Edge × Node => p.1 ∈ as ∧ H p.1 p.2) ∧
      List.Forall₂ (fun p row => ∃ r ∈ records, R p.1 r ∧ row = .ofHop r.values p.2) pairs rows := by
  induction h with
  | nil => exact ⟨[], [], rfl, ⟨List.nodup_nil, by simp⟩, .nil⟩
  | @cons a r as records hr _ ih =>
    obtain ⟨ha, hnodup⟩ := List.nodup_cons.mp hnodup
    obtain ⟨hs, hhs, hH⟩ := hops a r hr
    obtain ⟨rows, pairs, hrows, hpairs, hlaid⟩ := ih hnodup
    refine ⟨hs.map (.ofHop r.values) ++ rows, hs.map (Prod.mk a) ++ pairs, ?_, ?_, ?_⟩
    · rw [expandedRows, hhs, hrows]
      rfl
    · have hfirst : (hs.map (Prod.mk a)).Enumerates fun p => p.1 = a ∧ H p.1 p.2 := by
        refine ⟨hH.1.map (Prod.mk_right_injective a), ?_⟩
        rintro ⟨a', hop⟩
        simp only [List.mem_map, Prod.mk.injEq, hH.2]
        constructor
        · rintro ⟨hop', hHop, rfl, rfl⟩
          exact ⟨rfl, hHop⟩
        · rintro ⟨rfl, hHop⟩
          exact ⟨hop, hHop, rfl, rfl⟩
      refine (hfirst.append hpairs ?_).congr fun p => ?_
      · rintro p ⟨rfl, -⟩ ⟨hmem, -⟩
        exact ha hmem
      · rw [List.mem_cons]
        tauto
    · apply List.rel_append
      · rw [List.forall₂_map_left_iff, List.forall₂_map_right_iff]
        exact List.forall₂_same.mpr fun hop _ => ⟨r, List.mem_cons_self, hr, rfl⟩
      · refine hlaid.imp fun p row hp => ?_
        obtain ⟨r', hr', hR, hrow⟩ := hp
        exact ⟨r', List.mem_cons_of_mem _ hr', hR, hrow⟩

end Stored

end Synaptica.Exec
