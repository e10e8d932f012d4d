import Synaptica.Exec.IndexRewrite
import Synaptica.Storage.GraphState

/-!
# One expand step

An expand step follows, from the node whose id a row holds, every incident edge of the direction and the
label, and extends the row by the edge and the node behind it. The adjacency indexes are read by a prefix
that holds the label, cut behind 65535 bytes: labels with equal keys are not told apart.

* `Incident` — the edges at a node, each once, with the nodes behind them.
* `ExtendsRow` — what a row becomes along one of them.
* `execExpand_expands` — the rows of an expand step.
-/

namespace Synaptica.Exec

open Gql Storage

/-! ## What an expand step is to return -/

/-- The row holds the id of a node. -/
def HoldsNode (env : Env) (r : Record) (u : NodeId) : Prop :=
  ∃ s, r.get "__node_id" = some (.string s) ∧ env.parseUuid s = .ok u.uuid

/-- Every edge of the graph joins stored nodes. -/
def EndpointsStored (bin : Bincode) (db : Db) (g : GraphId) : Prop :=
  ∀ e, HasEdge bin db g e →
    (∃ n, HasNode bin db g n ∧ n.id = e.source) ∧ ∃ n, HasNode bin db g n ∧ n.id = e.target

/-- The accepted edges at `u` whose other end has the labels, each once, together with their other ends. -/
structure Incident (bin : Bincode) (db : Db) (g : GraphId) (direction : Direction) (accepts : Edge → Prop)
    (targetLabels : List String) (u : NodeId) (hops : List (Edge × Node)) : Prop where
  edges : (hops.map Prod.fst).Enumerates fun e =>
    HasEdge bin db g e ∧ accepts e ∧ (∃ v, Leads direction u e v) ∧
      ∀ n, HasNode bin db g n → Leads direction u e n.id → ∀ l ∈ targetLabels, hasLabel n l
  behind : ∀ hop ∈ hops, HasNode bin db g hop.2 ∧ Leads direction u hop.1 hop.2.id

/-- The row `o` is the row `r`, extended by an edge and the node behind it. The columns of `r` stay, but the
hidden id moves on to a node that gets a name; behind them stand the block of the edge and that of the
node. A variable answers with what it is bound to. -/
structure ExtendsRow (edgeKeys targetKeys : List String) (edgeVar targetVar : Option String) (r : Record)
    (hop : Edge × Node) (o : Record) : Prop where
  columns : o.columns = r.columns ++ variableColumns edgeKeys edgeVar ++ variableColumns targetKeys targetVar
  blocks : o.values.drop r.columns.length =
    (blockRow edgeKeys edgeVar (edgeValue hop.1) (propertyOrNull hop.1.properties)).values ++
      (blockRow targetKeys targetVar (nodeValue hop.2) (propertyOrNull hop.2.properties)).values
  kept : ∀ name ∈ r.columns, name ≠ "__node_id" → o.get name = r.get name
  hidden : o.get "__node_id" =
    if targetVar.isSome then some (.string hop.2.id.uuid.toString) else r.get "__node_id"
  edge : ∀ v ∈ edgeVar, o.get v = some (edgeValue hop.1)
  target : ∀ v ∈ targetVar, (∀ u ∈ edgeVar, ∀ k, v ≠ dotted u k) → o.get v = some (nodeValue hop.2)

/-- The rows of an expand step: for each row of the input, in order, one row for each incident edge. -/
def Expands (env : Env) (graphId : GraphId) (db : Db) (input : ResultSet) (direction : Direction)
    (accepts : Edge → Prop) (targetLabels : List String) (edgeVar targetVar : Option String)
    (rs : ResultSet) : Prop :=
  ∃ (edgeKeys targetKeys : List String) (groups : List (List (Edge × Node))),
    List.Forall₂ (fun r hops => ∃ u, HoldsNode env r u ∧
      Incident env.rt.bin db graphId direction accepts targetLabels u hops) input.records groups ∧
    edgeKeys.Enumerates (fun k => ∃ hop ∈ groups.flatten, k ∈ hop.1.properties) ∧
    targetKeys.Enumerates (fun k => ∃ hop ∈ groups.flatten, k ∈ hop.2.properties) ∧
    rs.columns = input.columns ++ variableColumns edgeKeys edgeVar ++ variableColumns targetKeys targetVar ∧
    List.Forall₂ (fun p o => ExtendsRow edgeKeys targetKeys edgeVar targetVar p.1 p.2 o)
      ((input.records.zip groups).flatMap fun p => p.2.map (p.1, ·)) rs.records

/-! ## Labels and their keys -/

/-- The edge has a label with the key of the filter. -/
def sameLabelKey (f : Option Label) (e : Edge) : Bool :=
  match f with
  | some l => encodeLabel e.label.name == encodeLabel l.name
  | none => true

/-- The adjacency reads go by the keys of labels. -/
theorem selects_sameLabelKey (Q : Edge → Prop) (f : Option Label) : Selects Q f (sameLabelKey f) := by
  intro g n n' e _
  cases f with
  | none =>
    rw [adjacencyPrefix, adjPrefix_prefix_iff]
    simp [sameLabelKey, @eq_comm _ n]
  | some l =>
    rw [adjacencyPrefix, adjLabelPrefix, adjKey, List.append_assoc _ (encodeLabel e.label.name),
      append_prefix_append_iff (by simp), append_eq_append_iff_of_length (by simp),
      encodeLabel_isPrefix_iff]
    simp [sameLabelKey, @eq_comm _ n, @eq_comm _ (encodeLabel e.label.name), and_assoc]

/-- The filter of an expand step, whose empty label stands for none. -/
theorem sameLabelKey_iff {edgeLabel : String} {e : Edge} :
    sameLabelKey (if edgeLabel.isEmpty then none else some ⟨edgeLabel⟩) e ↔
      edgeLabel = "" ∨ encodeLabel e.label.name = encodeLabel edgeLabel := by
  by_cases hempty : edgeLabel = ""
  · simp [hempty, sameLabelKey]
  · have hnot : ¬ edgeLabel.isEmpty := by simpa using hempty
    rw [if_neg hnot, or_iff_right hempty]
    exact beq_iff_eq

/-! ## The hops of a row -/

section Hops

variable {env : Env} {graphId : GraphId} {db : Db} {P : Node → Prop} {Q : Edge → Prop}

/-- An edge leads to one node only. -/
theorem Leads.unique {direction : Direction} {u v w : NodeId} {e : Edge} (h : Leads direction u e v)
    (h' : Leads direction u e w) : v = w := by
  rw [← (leads_iff.mp h).2, (leads_iff.mp h').2]

theorem EndpointsStored.exists_behind (h : EndpointsStored env.rt.bin db graphId) {e : Edge}
    (he : HasEdge env.rt.bin db graphId e) {direction : Direction} {u v : NodeId}
    (hleads : Leads direction u e v) : ∃ n, HasNode env.rt.bin db graphId n ∧ n.id = v := by
  obtain ⟨hsource, htarget⟩ := h e he
  cases direction with
  | outgoing => exact hleads.2 ▸ htarget
  | incoming => exact hleads.2 ▸ hsource
  | undirected =>
    rcases hleads with ⟨-, rfl⟩ | ⟨-, rfl⟩
    · exact htarget
    · exact hsource

/-- For at most one label, having one of them is having all of them. -/
theorem labels_iff {targetLabels : List String} (hlabels : targetLabels.length ≤ 1) (n : Node) :
    (targetLabels = [] ∨ ∃ l ∈ targetLabels, hasLabel n l) ↔ ∀ l ∈ targetLabels, hasLabel n l := by
  match targetLabels with
  | [] => simp
  | [l] => simp
  | _ :: _ :: _ => simp at hlabels

/-- The edges of the hops are those behind which a node is found. -/
theorem map_fst_filterMap_behind (h : WellIndexed env.rt.bin P Q db) (u : NodeId) (direction : Direction)
    (targetLabels : List String) (es : List Edge) :
    (es.filterMap (behind env graphId u direction targetLabels db)).map Prod.fst =
      es.filter fun e => (behind env graphId u direction targetLabels db e).isSome := by
  rw [List.map_filterMap, ← List.filterMap_eq_filter]
  apply List.filterMap_congr
  intro e _
  cases hbehind : behind env graphId u direction targetLabels db e with
  | none => simp [Option.guard, hbehind]
  | some hop =>
    obtain ⟨rfl, -⟩ := (behind_eq_some h).mp hbehind
    simp [Option.guard, hbehind]

/-- When the ends of edges are stored, a node is found behind an edge if the other end has the labels. -/
theorem isSome_behind_iff (h : WellIndexed env.rt.bin P Q db)
    (hends : EndpointsStored env.rt.bin db graphId) {direction : Direction} {targetLabels : List String}
    (hlabels : targetLabels.length ≤ 1) {u v : NodeId} {e : Edge} (he : HasEdge env.rt.bin db graphId e)
    (hleads : Leads direction u e v) :
    (behind env graphId u direction targetLabels db e).isSome ↔
      ∀ n, HasNode env.rt.bin db graphId n → Leads direction u e n.id → ∀ l ∈ targetLabels, hasLabel n l := by
  rw [Option.isSome_iff_exists]
  constructor
  · rintro ⟨hop, hbehind⟩ n hn hn'
    obtain ⟨-, hnode, hneighbour, hl⟩ := (behind_eq_some h).mp hbehind
    obtain rfl : n = hop.2 := by
      apply hn.eq_of_id hnode
      rw [← hneighbour, (leads_iff.mp hn').2]
    exact (labels_iff hlabels _).mp hl
  · intro hall
    obtain ⟨n, hn, hid⟩ := hends.exists_behind he hleads
    rw [← hid] at hleads
    exact ⟨(e, n), (behind_eq_some h).mpr ⟨rfl, hn, (leads_iff.mp hleads).2,
      (labels_iff hlabels n).mpr (hall n hn hleads)⟩⟩

theorem exists_incident (h : WellIndexed env.rt.bin P Q db) (hends : EndpointsStored env.rt.bin db graphId)
    (direction : Direction) (edgeLabel : String) {targetLabels : List String}
    (hlabels : targetLabels.length ≤ 1) {r : Record} {u : NodeId} (hr : HoldsNode env r u) :
    ∃ hops, hopsOf env graphId direction (if edgeLabel.isEmpty then none else some ⟨edgeLabel⟩)
        targetLabels r db = .ok hops ∧
      Incident env.rt.bin db graphId direction
        (fun e => edgeLabel = "" ∨ encodeLabel e.label.name = encodeLabel edgeLabel) targetLabels u hops := by
  obtain ⟨s, hid, hparse⟩ := hr
  obtain ⟨es, hes, hmem⟩ := @exists_incidentEdges env graphId db _ _ h u direction _ _
    (selects_sameLabelKey Q (if edgeLabel.isEmpty then none else some ⟨edgeLabel⟩))
  have htext : nodeIdText r = .ok s := by
    rw [nodeIdText, hid]
    rfl
  refine ⟨es.filterMap (behind env graphId u direction targetLabels db), ?_, ?_, ?_⟩
  · simp only [hopsOf, htext, hparse, Except.mapError, hes, bind, Except.bind, pure, Except.pure]
  · rw [map_fst_filterMap_behind h]
    refine (hmem.filter _).congr ?_
    intro e
    rw [sameLabelKey_iff, and_assoc, and_assoc]
    refine and_congr_right fun he => and_congr_right fun _ => and_congr_right ?_
    rintro ⟨v, hleads⟩
    exact isSome_behind_iff h hends hlabels he hleads
  · intro hop hhop
    obtain ⟨e, he, hbehind⟩ := List.mem_filterMap.mp hhop
    obtain ⟨rfl, hnode, hneighbour, -⟩ := (behind_eq_some h).mp hbehind
    exact ⟨hnode, leads_iff.mpr ⟨((hmem.2 _).mp he).2.2, hneighbour⟩⟩

end Hops

/-! ## The rows -/

section Rows

variable {env : Env} {graphId : GraphId} {db : Db}

/-- When each row has its hops, the rows of the step are the rows with one of their hops each. -/
theorem expandedRows_eq {direction : Direction} {label : Option Label} {targetLabels : List String}
    {records : List Record} {groups : List (List (Edge × Node))}
    (h : List.Forall₂ (fun r hops => hopsOf env graphId direction label targetLabels r db = .ok hops)
      records groups) :
    expandedRows env graphId direction label targetLabels db records =
      .ok (((records.zip groups).flatMap fun p => p.2.map (p.1, ·)).map fun p =>
        .ofHop p.1.values p.2) := by
  induction h with
  | nil => rfl
  | @cons r hops records groups hhops _ ih =>
    rw [expandedRows, hhops, ih, List.zip_cons_cons, List.flatMap_cons, List.map_append, List.map_map]
    rfl

theorem drop_expandValues {columns edgeKeys targetKeys : List String} {edgeVar targetVar : Option String}
    {row : ExpandRow} (hwidth : row.sourceValues.length = columns.length) (hid : "__node_id" ∈ columns) :
    (expandRecord columns edgeKeys targetKeys edgeVar targetVar row).values.drop columns.length =
      (blockRow edgeKeys edgeVar (edgeValue row.edge) (propertyOrNull row.edge.properties)).values ++
        (blockRow targetKeys targetVar (nodeValue row.target)
          (propertyOrNull row.target.properties)).values := by
  have hdrop : (expandRecord columns edgeKeys targetKeys edgeVar targetVar row).values.drop columns.length =
      (expandValues none edgeKeys targetKeys edgeVar targetVar row).drop columns.length := by
    cases htarget : targetVar with
    | none => rw [expandRecord_none rfl]
    | some v =>
      -- the hidden id that is overwritten stands among the columns of the source row
      obtain ⟨i, hi⟩ := Option.isSome_iff_exists.mp (List.isSome_idxOf?.mpr hid)
      have hi' : (expandColumns columns edgeKeys targetKeys edgeVar (some v)).idxOf? "__node_id" = some i := by
        rw [expandColumns, List.append_assoc, List.idxOf?, List.findIdx?_append, ← List.idxOf?, hi]
        rfl
      show (expandValues ((expandColumns columns edgeKeys targetKeys edgeVar (some v)).idxOf? "__node_id")
        edgeKeys targetKeys edgeVar (some v) row).drop columns.length = _
      rw [hi']
      exact List.drop_set_of_lt (List.idxOf?_eq_some_iff.mp hi).1
  rw [hdrop, ← hwidth]
  cases targetVar <;> simp [expandValues, blockRow]

theorem extendsRow_expandRecord {columns edgeKeys targetKeys : List String}
    {edgeVar targetVar : Option String} {r : Record} {u : NodeId} (hr : HoldsNode env r u)
    (hcolumns : r.columns = columns) (hwidth : r.values.length = columns.length)
    (hnames : ∀ v, v ∈ edgeVar ∨ v ∈ targetVar → v ∉ columns) (hne : ∀ v ∈ edgeVar, v ∉ targetVar)
    (hop : Edge × Node) :
    ExtendsRow edgeKeys targetKeys edgeVar targetVar r hop
      (expandRecord columns edgeKeys targetKeys edgeVar targetVar (.ofHop r.values hop)) := by
  subst hcolumns
  have hself : (⟨r.columns, (ExpandRow.ofHop r.values hop).sourceValues⟩ : Record) = r := rfl
  obtain ⟨s, hs, -⟩ := hr
  have hget : ∀ {name}, name ∉ r.columns → r.get name = none := (Record.get_eq_none_iff hwidth).mpr
  have hid : "__node_id" ∈ r.columns := by
    by_contra hnot
    rw [hget hnot] at hs
    cases hs
  constructor
  · rfl
  · exact drop_expandValues hwidth hid
  · intro name hname hhidden
    rw [get_expandRecord_of_ne hwidth hid (.inl hhidden), hself]
    have hsome : r.get name ≠ none := fun hnone => (Record.get_eq_none_iff hwidth).mp hnone hname
    obtain ⟨x, hx⟩ := Option.ne_none_iff_exists'.mp hsome
    rw [hx, Option.some_or, Option.some_or]
  · rw [get_expandRecord hwidth hid]
    split
    · next h =>
      rw [if_pos h.1]
      rfl
    · next h =>
      have hnone : ¬ targetVar.isSome := fun hsome => h ⟨hsome, rfl⟩
      rw [if_neg hnone, get_extended hwidth, hself, hs, Option.some_or, Option.some_or]
  · intro v hv
    have hnew := hnames v (.inl hv)
    have hhidden : v ≠ "__node_id" := fun heq => hnew (heq ▸ hid)
    cases hv
    rw [get_expandRecord_of_ne hwidth hid (.inl hhidden), hself, hget hnew, get_blockRow_self,
      Option.none_or, Option.some_or]
    rfl
  · intro v hv hclash
    have hnew := hnames v (.inr hv)
    have hhidden : v ≠ "__node_id" := fun heq => hnew (heq ▸ hid)
    cases hv
    have hedge : (blockRow edgeKeys edgeVar (edgeValue hop.1) (propertyOrNull hop.1.properties)).get v =
        none := by
      rw [Record.get_eq_none_iff (blockRow_length edgeVar)]
      cases edgeVar with
      | none => exact List.not_mem_nil
      | some w =>
        intro hmem
        rcases mem_variableColumns.mp hmem with rfl | ⟨k, -, rfl⟩
        · exact hne _ rfl rfl
        · exact hclash w rfl k rfl
    rw [get_expandRecord_of_ne hwidth hid (.inl hhidden), hself, hget hnew, Option.none_or]
    refine (congrArg (fun o => Option.or o _) hedge).trans ?_
    rw [Option.none_or, get_blockRow_self]
    rfl

end Rows

/-! ## The step -/

section Step

variable {env : Env} {graphId : GraphId} {db : Db} {P : Node → Prop} {Q : Edge → Prop}

/-- An order of the keys of some properties enumerates them. -/
theorem enumerates_order {α : Type} (draw : Draw) (xs : List α) (f : α → Properties) :
    (draw.order (keySet (xs.map f))).Enumerates fun k => ∃ x ∈ xs, k ∈ f x := by
  refine ⟨(draw.perm _).nodup_iff.mpr (List.nodup_dedup _), ?_⟩
  intro k
  rw [(draw.perm _).mem_iff, mem_keySet]
  simp only [List.mem_map, exists_exists_and_eq_and]

/-- The second halves of the pairs are all hops. -/
theorem map_snd_pairs {α β : Type} {xs : List α} {groups : List (List β)}
    (h : groups.length ≤ xs.length) :
    ((xs.zip groups).flatMap fun p => p.2.map (p.1, ·)).map Prod.snd = groups.flatten := by
  rw [List.map_flatMap]
  simp only [List.map_map, Function.comp_def, List.map_id']
  rw [List.flatMap_def, List.map_snd_zip h]

/-- **One expand step enumerates incident edges.** For every row of the input, in order, it returns one row
for each stored edge that leaves (enters, touches) the node of the row, has a label with the key of the edge
label and leads to a node with the target label. -/
theorem execExpand_expands (h : WellIndexed env.rt.bin P Q db)
    (hends : EndpointsStored env.rt.bin db graphId) {input : ResultSet} (hinput : input.Rectangular)
    (hids : ∀ r ∈ input.records, ∃ u, HoldsNode env r u) (direction : Direction) (edgeLabel : String)
    {targetLabels : List String} (hlabels : targetLabels.length ≤ 1) {edgeVar targetVar : Option String}
    (hnames : ∀ v, v ∈ edgeVar ∨ v ∈ targetVar → v ∉ input.columns) (hne : ∀ v ∈ edgeVar, v ∉ targetVar)
    (ω : Stream' Draw) :
    ∃ rs, ((execExpand env graphId input edgeLabel direction targetLabels edgeVar targetVar).run
        ω db).result = .ok rs ∧
      Expands env graphId db input direction
        (fun e => edgeLabel = "" ∨ encodeLabel e.label.name = encodeLabel edgeLabel) targetLabels edgeVar
        targetVar rs := by
  have hgroups : ∀ r ∈ input.records, ∃ hops, (∃ u, HoldsNode env r u ∧ Incident env.rt.bin db graphId
      direction (fun e => edgeLabel = "" ∨ encodeLabel e.label.name = encodeLabel edgeLabel) targetLabels u
        hops) ∧
      hopsOf env graphId direction (if edgeLabel.isEmpty then none else some ⟨edgeLabel⟩) targetLabels r
        db = .ok hops := by
    intro r hr
    obtain ⟨u, hu⟩ := hids r hr
    obtain ⟨hops, hhops, hincident⟩ := exists_incident h hends direction edgeLabel hlabels hu
    exact ⟨hops, ⟨u, hu, hincident⟩, hhops⟩
  choose! hopsAt hincident hhops using hgroups
  have hrows := expandedRows_eq (List.forall₂_map_right_iff.mpr
    (List.forall₂_same.mpr fun r hr => hhops r hr))
  set edgeKeys := ω.tail.head.order (keySet ((input.records.map hopsAt).flatten.map (·.1.properties)))
    with hedgeKeys
  set targetKeys := ω.head.order (keySet ((input.records.map hopsAt).flatten.map (·.2.properties)))
    with htargetKeys
  refine ⟨expandResultSet input.columns edgeKeys targetKeys edgeVar targetVar
      (((input.records.zip (input.records.map hopsAt)).flatMap fun p => p.2.map (p.1, ·)).map fun p =>
        .ofHop p.1.values p.2), ?_, edgeKeys, targetKeys, input.records.map hopsAt, ?_,
    enumerates_order .., enumerates_order .., rfl, ?_⟩
  · rw [hedgeKeys, htargetKeys, ← map_snd_pairs (List.length_map hopsAt).le, result_execExpand,
      expandResult, hrows]
    simp only [Except.ok_bind, List.map_map]
    rfl
  · rw [List.forall₂_map_right_iff]
    exact List.forall₂_same.mpr fun r hr => hincident r hr
  · rw [records_expandResultSet, List.map_map, List.forall₂_map_right_iff, List.forall₂_same]
    intro p hp
    obtain ⟨q, hq, hp⟩ := List.mem_flatMap.mp hp
    obtain ⟨hop, -, rfl⟩ := List.mem_map.mp hp
    have hr := (List.of_mem_zip hq).1
    obtain ⟨u, hu, -⟩ := hincident q.1 hr
    exact extendsRow_expandRecord hu (hinput q.1 hr).1 (hinput q.1 hr).2 hnames hne hop

end Step

/-! ## A loop -/

section Loop

open Journaled

variable (label : String)

/-- An edge from the person to itself. -/
def loop : Edge := { knows with label := ⟨label⟩ }

def loopEnv : Env := sampleEnv (.bare [person] [loop label])

def personStore : Db := exec (StorageEngine.putNode (loopEnv label).rt.bin person) Db.empty

def loopStore : Db := exec (StorageEngine.putEdge (loopEnv label).rt.bin (loop label)) (personStore label)

theorem roundTrips_loop :
    (loopEnv label).rt.bin.node.RoundTrips ∧ (loopEnv label).rt.bin.edge.RoundTrips :=
  ⟨Codec.ofTable_roundTrips (List.nodup_singleton _), Codec.ofTable_roundTrips (List.nodup_singleton _)⟩

theorem wellIndexed_personStore :
    WellIndexed (loopEnv label).rt.bin (fun _ => True) (fun _ => True) (personStore label) :=
  (putNode_keeps (roundTrips_loop label).1 trivial wellIndexed_empty).exec

theorem wellIndexed_loopStore :
    WellIndexed (loopEnv label).rt.bin (fun _ => True) (fun _ => True) (loopStore label) :=
  (putEdge_keeps (roundTrips_loop label).2 trivial (wellIndexed_personStore label)).exec

theorem edges_personStore : personStore label .edges = Db.empty .edges := by
  rcases putNode_cases (loopEnv label).rt.bin person Db.empty with
    ⟨_, -, hexec⟩ | ⟨stale, value, -, -, -, hexec⟩
  · rw [personStore, hexec]
  · rw [personStore, hexec]
    exact putNodeBatch_other Db.empty person stale value (by decide) (by decide)

theorem result_putNode_person :
    (StorageEngine.putNode (loopEnv label).rt.bin person Db.empty).result = .ok () := by
  have hstale : ((Journaled.read fun db => StorageEngine.staleLabels (loopEnv label).rt.bin db person :
      StorageM (List Label)) Db.empty).result = .ok [] := by
    show StorageEngine.staleLabels (loopEnv label).rt.bin Db.empty person = _
    simp [StorageEngine.staleLabels, Db.empty]
  have hvalue : ((Journaled.read fun _ => serializeValue (loopEnv label).rt.bin.node person :
      StorageM Bytes) Db.empty).result = .ok (bincodeBareNode person) := by
    show serializeValue (loopEnv label).rt.bin.node person = _
    refine serializeValue_eq_ok.mpr ?_
    simp [loopEnv, sampleEnv, Bincode.bare, Codec.ofTable]
  rw [StorageEngine.putNode, result_bind_ok hstale]
  exact result_bind_ok hvalue

theorem result_putEdge_loop :
    (StorageEngine.putEdge (loopEnv label).rt.bin (loop label) (personStore label)).result = .ok () := by
  have hstale : ((Journaled.read fun db => StorageEngine.staleEdge (loopEnv label).rt.bin db (loop label) :
      StorageM (Option Edge)) (personStore label)).result = .ok none := by
    show StorageEngine.staleEdge (loopEnv label).rt.bin (personStore label) (loop label) = _
    rw [StorageEngine.staleEdge, edges_personStore]
    simp [Db.empty]
  have hvalue : ((Journaled.read fun _ => serializeValue (loopEnv label).rt.bin.edge (loop label) :
      StorageM Bytes) (personStore label)).result = .ok (bincodeBareEdge (loop label)) := by
    show serializeValue (loopEnv label).rt.bin.edge (loop label) = _
    refine serializeValue_eq_ok.mpr ?_
    simp [loopEnv, sampleEnv, Bincode.bare, Codec.ofTable]
  rw [StorageEngine.putEdge, result_bind_ok hstale]
  exact result_bind_ok hvalue

theorem hasEdge_loopStore {e : Edge} :
    HasEdge (loopEnv label).rt.bin (loopStore label) sampleGraph e ↔ e = loop label := by
  have hnone : ¬ HasEdge (loopEnv label).rt.bin (personStore label) sampleGraph e := by
    rw [HasEdge, StorageEngine.getEdge, edges_personStore]
    simp [Db.empty]
  rw [loopStore, hasEdge_putEdge (roundTrips_loop label).2 (wellIndexed_personStore label) trivial
    (result_putEdge_loop label)]
  simp [hnone, loop, knows]

theorem hasNode_person : HasNode (loopEnv label).rt.bin (loopStore label) sampleGraph person := by
  rw [loopStore, hasNode_putEdge, personStore, hasNode_putNode (P := fun _ => True) (Q := fun _ => True)
    (roundTrips_loop label).1 wellIndexed_empty trivial (result_putNode_person label)]
  exact .inl ⟨rfl, rfl⟩

theorem endpointsStored_loopStore :
    EndpointsStored (loopEnv label).rt.bin (loopStore label) sampleGraph := by
  intro e he
  obtain rfl := (hasEdge_loopStore label).mp he
  exact ⟨⟨person, hasNode_person label, rfl⟩, person, hasNode_person label, rfl⟩

/-- The row of the person. -/
def personRow : ResultSet := .ofRows ["__node_id"] [[.string person.id.uuid.toString]]

theorem rectangular_personRow : personRow.Rectangular := by
  intro r hr
  obtain rfl := List.mem_singleton.mp hr
  exact ⟨rfl, rfl⟩

theorem holdsNode_personRow : ∀ r ∈ personRow.records, ∃ u, HoldsNode (loopEnv label) r u := by
  intro r hr
  obtain rfl := List.mem_singleton.mp hr
  exact ⟨person.id, _, rfl, parseUuid_sampleEnv _ _⟩

/-- From the person along `KNOWS`, in both directions. -/
theorem execExpand_expands_knows :
    ∃ rs, ((execExpand (loopEnv "KNOWS") sampleGraph personRow "KNOWS" .undirected ["Person"] (some "e")
        (some "b")).run sampleDraws (loopStore "KNOWS")).result = .ok rs ∧
      Expands (loopEnv "KNOWS") sampleGraph (loopStore "KNOWS") personRow .undirected
        (fun e => "KNOWS" = "" ∨ encodeLabel e.label.name = encodeLabel "KNOWS") ["Person"] (some "e")
        (some "b") rs := by
  apply execExpand_expands (wellIndexed_loopStore "KNOWS") (endpointsStored_loopStore "KNOWS")
    rectangular_personRow (holdsNode_personRow "KNOWS")
  · exact le_rfl
  · rintro v (hv | hv)
    · cases hv
      decide
    · cases hv
      decide
  · decide

/-- A label that agrees with the one of the edge in its first 65535 bytes finds the edge. -/
theorem not_execExpand_expands_longText :
    WellIndexed (loopEnv (longText ++ "a")).rt.bin (fun _ => True) (fun _ => True)
        (loopStore (longText ++ "a")) ∧
      EndpointsStored (loopEnv (longText ++ "a")).rt.bin (loopStore (longText ++ "a")) sampleGraph ∧
      personRow.Rectangular ∧
      (∀ r ∈ personRow.records, ∃ u, HoldsNode (loopEnv (longText ++ "a")) r u) ∧
      ¬ ∃ rs, ((execExpand (loopEnv (longText ++ "a")) sampleGraph personRow (longText ++ "b") .outgoing []
          none none).run sampleDraws (loopStore (longText ++ "a"))).result = .ok rs ∧
        Expands (loopEnv (longText ++ "a")) sampleGraph (loopStore (longText ++ "a")) personRow .outgoing
          (fun e => longText ++ "b" = "" ∨ e.label.name = longText ++ "b") [] none none rs := by
  refine ⟨wellIndexed_loopStore _, endpointsStored_loopStore _, rectangular_personRow,
    holdsNode_personRow _, ?_⟩
  rintro ⟨rs, hrs, hclaimed⟩
  have hlabel : encodeLabel (loop (longText ++ "a")).label.name = encodeLabel (longText ++ "b") :=
    encodeLabel_append length_longText "a" "b"
  have hperson : HoldsNode (loopEnv (longText ++ "a")) ⟨["__node_id"], [.string person.id.uuid.toString]⟩
      person.id := ⟨_, rfl, parseUuid_sampleEnv _ _⟩
  -- the step finds the loop
  obtain ⟨hops, hhops, hincident⟩ := @exists_incident (loopEnv (longText ++ "a")) sampleGraph
    (loopStore (longText ++ "a")) _ _ (wellIndexed_loopStore _) (endpointsStored_loopStore _) .outgoing
    (longText ++ "b") [] (Nat.zero_le 1) _ _ hperson
  have hfound : loop (longText ++ "a") ∈ hops.map Prod.fst := by
    rw [hincident.edges.2]
    refine ⟨(hasEdge_loopStore _).mpr rfl, .inr hlabel, ⟨person.id, rfl, rfl⟩, ?_⟩
    intro n _ _ l hl
    cases hl
  have hrecords : personRow.records = [⟨["__node_id"], [.string person.id.uuid.toString]⟩] := rfl
  rw [result_execExpand, expandResult, hrecords, expandedRows_eq (.cons hhops .nil)] at hrs
  cases hrs
  -- and no edge has the label
  obtain ⟨edgeKeys, targetKeys, groups, hgroups, -, -, -, hrows⟩ := hclaimed
  rw [hrecords] at hgroups hrows
  obtain ⟨claimed, _, ⟨u, -, hnone⟩, hrest, rfl⟩ := List.forall₂_cons_left_iff.mp hgroups
  obtain rfl := List.forall₂_nil_left_iff.mp hrest
  have hempty : claimed = [] := by
    rw [← List.map_eq_nil_iff (f := Prod.fst), List.eq_nil_iff_forall_not_mem]
    intro e he
    obtain ⟨hedge, hmatches, -⟩ := (hnone.edges.2 e).mp he
    obtain rfl := (hasEdge_loopStore _).mp hedge
    simp [loop] at hmatches
  rw [hempty] at hrows
  have hlength : 0 = hops.length := by simpa [records_expandResultSet] using hrows.length_eq
  rw [List.length_eq_zero_iff.mp hlength.symm] at hfound
  cases hfound

end Loop

end Synaptica.Exec
