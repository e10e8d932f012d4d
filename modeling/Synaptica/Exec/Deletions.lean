import Synaptica.Exec.WriteEffects

/-!
# What `DELETE` removes

`DELETE` looks at the values that the identifiers among its targets have on the matched rows, or at all
values of the rows when no target is an identifier; every node among them goes together with the edges at
it. `Deletes` is what the statement asks for: the nodes and edges that the targets evaluate to, and the
edges at these nodes only when `DETACH` is written or they are targets as well. The two agree exactly when
the values that are looked at name what the targets evaluate to and no edge is left behind
(`deletes_iff`).
-/

namespace Synaptica

namespace PropertyGraph

/-- Two removals of edges and nodes have the same outcome. -/
theorem remove_eq_remove_iff {G : PropertyGraph} {E E' : Set EdgeId} {N N' : Set NodeId} :
    (G.removeEdges E).removeNodes N = (G.removeEdges E').removeNodes N' ↔
      (∀ n ∈ G.nodes, n.id ∈ N ↔ n.id ∈ N') ∧ ∀ e ∈ G.edges,
        (e.id ∉ E ∧ e.source ∉ N ∧ e.target ∉ N ↔ e.id ∉ E' ∧ e.source ∉ N' ∧ e.target ∉ N') := by
  have hnodes : ∀ (E : Set EdgeId) (N : Set NodeId), ((G.removeEdges E).removeNodes N).nodes =
      G.nodes.filter fun n => n.id ∉ N := fun _ _ => rfl
  have hedges : ∀ (E : Set EdgeId) (N : Set NodeId), ((G.removeEdges E).removeNodes N).edges =
      G.edges.filter fun e => e.id ∉ E ∧ e.source ∉ N ∧ e.target ∉ N :=
    fun _ _ => KeyedSet.filter_filter
  rw [PropertyGraph.ext_iff, hnodes, hnodes, hedges, hedges, KeyedSet.filter_eq_filter_iff,
    KeyedSet.filter_eq_filter_iff]
  exact and_congr_left' (forall₂_congr fun n _ => not_iff_not)

end PropertyGraph

end Synaptica

namespace Synaptica.Exec

open Gql Storage Process

/-! ## What is asked for -/

section Targets

variable (env : Env)

/-- The values of the target expressions on the rows. -/
def targetValues (targets : List Expression) (rs : ResultSet) : Except ExecError (List Value) := do
  let rows ← rs.records.mapM fun record => evaluateAll env record targets
  pure rows.flatten

def nodesAmong (values : List Value) : Set NodeId := {i | ∃ v ∈ values, entityOf env v = some (.node i)}

def edgesAmong (values : List Value) : Set EdgeId := {i | ∃ v ∈ values, entityOf env v = some (.edge i)}

/-- The nodes of the graph among some values. -/
def storedAmong (G : PropertyGraph) (values : List Value) : Set NodeId :=
  {i | i ∈ nodesAmong env values ∧ ∃ n ∈ G.nodes, n.id = i}

/-- Every edge at a node that is removed goes as well: because `DETACH` is written, or as a target. -/
def NoneLeft (detach : Bool) (G : PropertyGraph) (values : List Value) : Prop :=
  detach = true ∨ ∀ e ∈ G.edges, e.source ∈ storedAmong env G values ∨ e.target ∈ storedAmong env G values →
    e.id ∈ edgesAmong env values

/-- Exactly these nodes and edges are removed, together with the edges at the nodes. -/
structure Deletes (g : GraphId) (detach : Bool) (values : List Value) (db db' : Db) : Prop where
  noneLeft : NoneLeft env detach (graphOf env.rt.bin db g) values
  becomes : Becomes env.rt.bin g db db' (((graphOf env.rt.bin db g).removeEdges
    (edgesAmong env values)).removeNodes (storedAmong env (graphOf env.rt.bin db g) values))
  catalog : SameCatalog env.rt db db'

/-- The values that are looked at name the stored nodes and edges among the values of the targets; the
edges at a node that is removed go with it in any case. -/
structure NamesTargets (G : PropertyGraph) (detach : Bool) (looked values : List Value) : Prop where
  noneLeft : NoneLeft env detach G values
  nodes : ∀ n ∈ G.nodes, n.id ∈ nodesAmong env looked ↔ n.id ∈ nodesAmong env values
  edges : ∀ e ∈ G.edges, e.source ∉ storedAmong env G values → e.target ∉ storedAmong env G values →
    (e.id ∈ edgesAmong env looked ↔ e.id ∈ edgesAmong env values)

variable {env}

theorem targeted_asNodeId (values : List Value) :
    targeted env .mk Value.asNodeId [] values = nodesAmong env values := by
  ext i
  refine exists_congr fun v => and_congr_right fun _ => ?_
  cases v with
  | node id labels properties =>
    cases hid : env.parseUuid id <;> simp [Value.asNodeId, entityOf, hid, Except.toOption]
  | _ => simp [Value.asNodeId, entityOf]

theorem targeted_asEdgeId (values : List Value) :
    targeted env .mk asEdgeId [] values = edgesAmong env values := by
  ext i
  refine exists_congr fun v => and_congr_right fun _ => ?_
  cases v with
  | edge id label sourceId targetId properties =>
    cases hid : env.parseUuid id <;> simp [asEdgeId, entityOf, hid, Except.toOption]
  | _ => simp [asEdgeId, entityOf]

/-- Removing what is looked at is removing the targets. -/
theorem namesTargets_iff {G : PropertyGraph} {detach : Bool} {looked values : List Value}
    (hstored : ∀ i ∈ nodesAmong env looked, ∃ n ∈ G.nodes, n.id = i) :
    NamesTargets env G detach looked values ↔ NoneLeft env detach G values ∧
      (G.removeEdges (edgesAmong env looked)).removeNodes (nodesAmong env looked) =
        (G.removeEdges (edgesAmong env values)).removeNodes (storedAmong env G values) := by
  have hown : ∀ n ∈ G.nodes, n.id ∈ storedAmong env G values ↔ n.id ∈ nodesAmong env values :=
    fun n hn => ⟨fun h => h.1, fun h => ⟨h, n, hn, rfl⟩⟩
  have hsame : (∀ n ∈ G.nodes, n.id ∈ nodesAmong env looked ↔ n.id ∈ nodesAmong env values) →
      nodesAmong env looked = storedAmong env G values := by
    intro h
    ext i
    constructor
    · intro hi
      obtain ⟨n, hn, rfl⟩ := hstored i hi
      exact (hown n hn).mpr ((h n hn).mp hi)
    · rintro ⟨hi, n, hn, rfl⟩
      exact (h n hn).mpr hi
  rw [PropertyGraph.remove_eq_remove_iff]
  constructor
  · intro h
    refine ⟨h.noneLeft, ?_, ?_⟩
    · intro n hn
      rw [h.nodes n hn, hown n hn]
    · intro e he
      rw [hsame h.nodes]
      apply and_congr_left
      rintro ⟨hsource, htarget⟩
      exact not_congr (h.edges e he hsource htarget)
  · rintro ⟨hleft, hnodes, hedges⟩
    have hlooked : ∀ n ∈ G.nodes, n.id ∈ nodesAmong env looked ↔ n.id ∈ nodesAmong env values :=
      fun n hn => (hnodes n hn).trans (hown n hn)
    refine ⟨hleft, hlooked, fun e he hsource htarget => ?_⟩
    have hedge := hedges e he
    rw [hsame hlooked] at hedge
    simpa [hsource, htarget, not_iff_not] using hedge

end Targets

/-! ## What is removed -/

section Statement

variable {env : Env} {g : GraphId}

/-- What a `DELETE` behind a `MATCH` does when it succeeds. -/
theorem effect_delete {db : Db} (hdb : Sound env.rt db) {m : MatchStatement} {detach : Bool}
    {targets : List Expression} {ω : Stream' Draw} {rs answer : ResultSet} (hrs : Matches env g m ω db rs)
    (hok : ((executeProgram env g ⟨[.matchStmt m, .delete detach targets]⟩).run ω db).result = .ok answer) :
    let looked := rs.records.flatMap (valuesToCheck (targets.filterMap QueryPlanner.identifierName))
    let db' := ((executeProgram env g ⟨[.matchStmt m, .delete detach targets]⟩).run ω db).state
    (∀ i ∈ nodesAmong env looked, ∃ n ∈ (graphOf env.rt.bin db g).nodes, n.id = i) ∧
      Becomes env.rt.bin g db db' (((graphOf env.rt.bin db g).removeEdges
        (edgesAmong env looked)).removeNodes (nodesAmong env looked)) ∧ SameCatalog env.rt db db' := by
  intro looked db'
  obtain ⟨plan, hplan, hgo⟩ := goes_executeProgram (goes_of_result hok)
  obtain ⟨base, hbase, hdelete⟩ := plan_match hplan
  cases hdelete
  obtain ⟨c, hstate, hreports, hgo⟩ := hrs.goes_bind hbase hgo
  have hgood : Good env g _ c := .of_state hdb hstate
  obtain ⟨hstored, heffect⟩ := effect_execDeleteNodes hgood hgo
  rw [targeted_asNodeId, hstate] at hstored
  have hbecomes := heffect.becomes
  rw [targeted_asNodeId, targeted_asEdgeId, hstate] at hbecomes
  refine ⟨hstored, hbecomes, ((graphCalls_sameCatalog env.rt db).delete rs _).goes hgo ?_⟩
  rw [hstate]
  exact .refl db

end Statement

/-- **What `DELETE` removes is what it asks for** exactly when the values it looks at name the targets and
no edge at a node that is removed is left behind. -/
theorem deletes_iff (env : Env) (hnode : env.rt.bin.node.RoundTrips) (hedge : env.rt.bin.edge.RoundTrips)
    (requests : List Request) (g : GraphId) (m : MatchStatement) (detach : Bool) (targets : List Expression)
    (ω : Stream' Draw) :
    let db := Run.exec (Request.exec env) Db.empty requests
    let ended := (executeProgram env g ⟨[.matchStmt m, .delete detach targets]⟩).run ω db
    ∀ rs answer, Matches env g m ω db rs → ended.result = .ok answer →
      ((∃ values, targetValues env targets rs = .ok values ∧ Deletes env g detach values db ended.state) ↔
        ∃ values, targetValues env targets rs = .ok values ∧ NamesTargets env (graphOf env.rt.bin db g) detach
          (rs.records.flatMap (valuesToCheck (targets.filterMap QueryPlanner.identifierName))) values) := by
  intro db ended rs answer hrs hok
  obtain ⟨hstored, hbecomes, hcatalog⟩ := effect_delete (run_sound hnode hedge requests) hrs hok
  refine exists_congr fun values => and_congr_right fun _ => ?_
  rw [namesTargets_iff hstored]
  constructor
  · intro h
    refine ⟨h.noneLeft, ?_⟩
    rw [← hbecomes.graph, h.becomes.graph]
  · rintro ⟨hleft, hsame⟩
    exact ⟨hleft, hsame ▸ hbecomes, hcatalog⟩

/-- The store after `insertWithP`. -/
def storeWithP : Db := Run.exec (Request.exec (sampleEnv indexBincode)) Db.empty [insertWithP]

/-- `MATCH (n:Person) [DETACH] DELETE target`. -/
def deletePerson (detach : Bool) (target : Expression) : GqlProgram :=
  ⟨[.matchStmt matchAPerson, .delete detach [target]]⟩

theorem matches_matchAPerson :
    Matches (sampleEnv indexBincode) sampleGraph matchAPerson sampleDraws storeWithP rowOfPerson :=
  ⟨_, rfl, by decide⟩

/-- `MATCH (n:Person) DETACH DELETE n` removes the person. -/
theorem deletes_iff_detach : ∃ values,
    targetValues (sampleEnv indexBincode) [.identifier "n"] rowOfPerson = .ok values ∧
      Deletes (sampleEnv indexBincode) sampleGraph true values storeWithP
        ((executeProgram (sampleEnv indexBincode) sampleGraph
          (deletePerson true (.identifier "n"))).run sampleDraws storeWithP).state := by
  obtain ⟨hnode, hedge, -⟩ := indexBincode_roundTrips
  have hlooked : rowOfPerson.records.flatMap (valuesToCheck ["n"]) = [nodeValue withP] := by
    decide
  have hvalues : targetValues (sampleEnv indexBincode) [.identifier "n"] rowOfPerson =
      .ok [nodeValue withP] := by
    decide
  refine (@deletes_iff (sampleEnv indexBincode) hnode hedge [insertWithP] sampleGraph matchAPerson true
    [.identifier "n"] sampleDraws rowOfPerson (.ofRows ["deleted"] [[.integer 1]]) matches_matchAPerson
    (by decide)).mpr ⟨_, hvalues, .inl rfl, ?_, ?_⟩
  · exact fun n _ => by rw [← hlooked]; rfl
  · exact fun e _ _ _ => by rw [← hlooked]; rfl

/-- `MATCH (n:Person) DELETE n.p` names no node, and removes the person. -/
theorem not_deletes_property :
    Matches (sampleEnv indexBincode) sampleGraph matchAPerson sampleDraws storeWithP rowOfPerson ∧
    ((executeProgram (sampleEnv indexBincode) sampleGraph (deletePerson false
      (.propertyAccess (.identifier "n") "p"))).run sampleDraws storeWithP).result =
        .ok (.ofRows ["deleted"] [[.integer 1]]) ∧
    ¬ ∃ values, targetValues (sampleEnv indexBincode) [.propertyAccess (.identifier "n") "p"] rowOfPerson =
      .ok values ∧ Deletes (sampleEnv indexBincode) sampleGraph false values storeWithP
        ((executeProgram (sampleEnv indexBincode) sampleGraph (deletePerson false
          (.propertyAccess (.identifier "n") "p"))).run sampleDraws storeWithP).state := by
  refine ⟨matches_matchAPerson, by decide, ?_⟩
  rintro ⟨values, hvalues, hdeletes⟩
  have hone : targetValues (sampleEnv indexBincode) [.propertyAccess (.identifier "n") "p"] rowOfPerson =
      .ok [.integer 1] := by
    decide
  cases hone.symm.trans hvalues
  have hstored : HasNode indexBincode storeWithP sampleGraph withP := by
    decide
  have hgone : ¬ HasNode indexBincode ((executeProgram (sampleEnv indexBincode) sampleGraph
      (deletePerson false (.propertyAccess (.identifier "n") "p"))).run sampleDraws storeWithP).state
        sampleGraph withP := by
    decide
  -- no target is a node, so the person should have stayed
  have hkept : withP ∈ (((graphOf indexBincode storeWithP sampleGraph).removeEdges
      (edgesAmong (sampleEnv indexBincode) [.integer 1])).removeNodes
        (storedAmong (sampleEnv indexBincode) (graphOf indexBincode storeWithP sampleGraph)
          [.integer 1])).nodes :=
    ⟨hstored, fun h => by simp [storedAmong, nodesAmong, entityOf] at h⟩
  have hgraph := hdeletes.becomes.graph
  exact hgone (mem_nodes_graphOf.mp (hgraph ▸ hkept))

end Synaptica.Exec
