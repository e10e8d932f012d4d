import Synaptica.Exec.WriteEffects
import Synaptica.Gql.InsertShape

/-!
# Mutation statistics

The counts that a program reports are exact: what the graph has more afterwards than before is what was
created less what was deleted. Each operator that succeeds turns the graph into another one and reports
the difference, so a plan does, by induction on it. Only a graph that is dropped goes uncounted.
-/

namespace Synaptica.Gql

/-! ## Plans that drop no graph -/

namespace LogicalPlan

/-- No operator that is executed drops a graph. -/
def keepsGraphs : LogicalPlan → Bool
  | dropGraph .. => false
  | filter input _ | project input _ _ | expand input .. | sort input _ | limit input _ _
  | distinct input | deleteNode input .. | setProperty input .. | createEdgeFromMatch input .. =>
    keepsGraphs input
  | join left right => keepsGraphs left && keepsGraphs right
  | _ => true

theorem keepsGraphs_of_readOnly {p : LogicalPlan} (h : p.readOnly) : p.keepsGraphs := by
  induction p with
  | filter _ _ ih | project _ _ _ ih | expand _ _ _ _ _ _ ih | sort _ _ ih | limit _ _ _ ih
  | distinct _ ih => exact ih h
  | join left right ihl ihr =>
    rw [readOnly, Bool.and_eq_true] at h
    rw [keepsGraphs, ihl h.1, ihr h.2, Bool.and_true]
  | deleteNode | setProperty | createEdgeFromMatch | dropGraph => simp [readOnly] at h
  | _ => rfl

theorem Over.keepsGraphs {p q : LogicalPlan} (h : Over p q) (hp : p.keepsGraphs) : q.keepsGraphs := by
  induction h with
  | join _ hright ih => rw [LogicalPlan.keepsGraphs, ih, keepsGraphs_of_readOnly hright, Bool.and_true]
  | refl => exact hp
  | _ _ ih => exact ih

end LogicalPlan

namespace QueryPlanner

open LogicalPlan

theorem keepsGraphs_planMatch {m : MatchStatement} {input : Option LogicalPlan} {plan : LogicalPlan}
    (h : planMatch m input = .ok plan) (hinput : ∀ p ∈ input, p.keepsGraphs) : plan.keepsGraphs := by
  obtain ⟨first, rest, hscans, hover⟩ := planMatch_eq_ok h
  have hpath : ∀ p ∈ first :: rest, p.keepsGraphs := by
    intro p hp
    obtain ⟨path, -, hplan⟩ := List.exists_of_mem_mapM hscans hp
    obtain ⟨labels, hstart⟩ := planPath_eq_ok hplan
    apply hstart.keepsGraphs
    unfold scanOrInput
    split
    · exact hinput _ rfl
    · rfl
  have hjoin : ∀ (rest : List LogicalPlan) (first : LogicalPlan), first.keepsGraphs →
      (∀ p ∈ rest, p.keepsGraphs) → (rest.foldl .join first).keepsGraphs := by
    intro rest
    induction rest with
    | nil => exact fun first hfirst _ => hfirst
    | cons p rest ih =>
      intro first hfirst hrest
      apply ih
      · rw [LogicalPlan.keepsGraphs, hfirst, hrest p List.mem_cons_self, Bool.and_true]
      · exact fun q hq => hrest q (List.mem_cons_of_mem _ hq)
  exact hover.keepsGraphs (hjoin rest first (hpath first List.mem_cons_self) fun p hp =>
    hpath p (List.mem_cons_of_mem _ hp))

theorem keepsGraphs_planSet {items : List SetItem} {base plan : LogicalPlan} (hbase : base.keepsGraphs)
    (h : items.foldlM planSetItem base = .ok plan) : plan.keepsGraphs := by
  induction items generalizing base with
  | nil =>
    cases h
    exact hbase
  | cons item items ih =>
    rw [List.foldlM_cons] at h
    obtain ⟨next, hnext, hrest⟩ := Except.bind_eq_ok.mp h
    apply ih _ hrest
    cases item with
    | property target property value =>
      cases hnext
      exact hbase
    | label | allProperties => cases hnext

/-- Only the statement `DROP GRAPH` makes a plan drop a graph. -/
theorem keepsGraphs_planStatement {stmt : GqlStatement} (hstmt : ∀ name b, stmt ≠ .dropGraph name b)
    {input : Option LogicalPlan} (hinput : ∀ p ∈ input, p.keepsGraphs) {plan : LogicalPlan}
    (h : planStatement stmt input = .ok plan) : plan.keepsGraphs := by
  have hbase : (input.getD .empty).keepsGraphs := by
    cases input with
    | none => rfl
    | some p => exact hinput p rfl
  cases stmt with
  | matchStmt m => exact keepsGraphs_planMatch h hinput
  | returnStmt r =>
    cases h
    exact (over_planReturn r input).keepsGraphs hbase
  | withStmt w =>
    cases h
    exact (over_planWith w input).keepsGraphs hbase
  | insert patterns =>
    rcases planInsert_eq_ok h with ⟨-, n, -, rfl⟩ | ⟨base, _, _, _, _, _, _, _, hin, -, -, -, rfl⟩
    · rfl
    · exact hinput base hin
  | set items =>
    cases input with
    | none => cases h
    | some base => exact keepsGraphs_planSet (hinput base rfl) h
  | delete detach targets =>
    cases input with
    | none => cases h
    | some base =>
      cases h
      exact hinput base rfl
  | dropGraph name ifExists => exact absurd rfl (hstmt name ifExists)
  | remove | createGraphType | compositeQuery => cases h
  | call | createIndex | dropIndex | createGraph | listGraphs =>
    cases h
    rfl

theorem keepsGraphs_planFrom {stmts : List GqlStatement} (hstmts : ∀ name b, .dropGraph name b ∉ stmts)
    {input current : Option LogicalPlan} (hinput : ∀ p ∈ input, p.keepsGraphs)
    (h : planFrom input stmts = .ok current) : ∀ p ∈ current, p.keepsGraphs := by
  induction stmts generalizing input with
  | nil =>
    cases h
    exact hinput
  | cons stmt stmts ih =>
    obtain ⟨plan, hplan, hrest⟩ := planFrom_cons_eq_ok.mp h
    apply ih (fun name b hmem => hstmts name b (List.mem_cons_of_mem _ hmem)) _ hrest
    intro p hp
    cases hp
    refine keepsGraphs_planStatement (fun name b heq => ?_) hinput hplan
    exact hstmts name b (heq ▸ List.mem_cons_self)

theorem keepsGraphs_plan {P : GqlProgram} (hP : ∀ name b, .dropGraph name b ∉ P.statements)
    {plan : LogicalPlan} (h : QueryPlanner.plan P = .ok plan) : plan.keepsGraphs := by
  obtain ⟨current, hcurrent, rfl⟩ := plan_eq_ok.mp h
  have hplans := keepsGraphs_planFrom hP (fun _ hp => by cases hp) hcurrent
  cases current with
  | none => rfl
  | some p => exact hplans p rfl

end QueryPlanner

end Synaptica.Gql

namespace Synaptica.Exec

open Gql Storage Process

section Optimized

variable {env : Env} {graphId : GraphId}

theorem keepsGraphs_optimized (db : Db) {plan : LogicalPlan} (h : plan.keepsGraphs) :
    (optimized env graphId db plan).keepsGraphs := by
  induction plan with
  | filter input predicate ih =>
    have hkept : ∀ q : LogicalPlan, q.keepsGraphs →
        (rewriteFilter env graphId db q predicate).keepsGraphs := by
      intro q hq
      unfold rewriteFilter
      split
      · split
        · next indexes _ =>
          cases hscan : tryIndexScan indexes _ _ predicate with
          | none => rfl
          | some plan =>
            obtain ⟨_, _, _, _, rfl⟩ := tryIndexScan_eq_some hscan
            rfl
        · rfl
      · exact hq
    exact hkept _ (ih h)
  | join left right ihl ihr =>
    rw [LogicalPlan.keepsGraphs, Bool.and_eq_true] at h
    rw [optimized, LogicalPlan.keepsGraphs, ihl h.1, ihr h.2, Bool.and_true]
  | project _ _ _ ih | sort _ _ ih | limit _ _ _ ih | distinct _ ih | expand _ _ _ _ _ _ ih
  | deleteNode _ _ _ ih | setProperty _ _ _ _ ih => exact ih h
  | _ => exact h

end Optimized

/-! ## Plans -/

section Plans

variable {env : Env} {graphId : GraphId} {U : Set Uuid} {c c' : Config Db Draw ExecStats}

theorem silent_execCreateIndex (name : String) (unique : Bool) (entityType : String)
    (label : Option String) (propertyNames : List String) :
    (execCreateIndex env graphId name unique entityType label propertyNames).Silent := by
  have hbackfill : ∀ (index : IndexDefinition) (nodes : List Node), (backfill env index nodes).Silent := by
    intro index nodes
    induction nodes with
    | nil => exact silent_pure _
    | cons node nodes ih =>
      rw [backfill]
      split
      · exact silent_bind (silent_atomic _ _) fun _ => ih
      · exact ih
  unfold execCreateIndex
  extract_lets index finish
  apply silent_bind (silent_atomic _ _)
  intro _
  split
  · apply silent_bind (silent_query _ _)
    intro nodes
    exact silent_bind (hbackfill index nodes) fun _ => silent_pure _
  · exact silent_pure _

theorem silent_execCreateGraph (name : String) (ifNotExists : Bool) :
    (execCreateGraph env name ifNotExists).Silent := by
  apply silent_bind (silent_tryQuery _)
  intro found
  cases found with
  | ok _ =>
    dsimp only
    split
    · exact silent_pure _
    · exact silent_fail _
  | error _ => exact silent_bind (silent_atomic _ _) fun _ => silent_pure _

/-- Index definitions and graphs are no part of the data. -/
theorem effect_execCreateIndex (hc : Good env graphId U c) {name : String} {unique : Bool}
    {entityType : String} {label : Option String} {propertyNames : List String} {rs : ResultSet}
    (hgo : (execCreateIndex env graphId name unique entityType label propertyNames).Goes c rs c') :
    Effect env graphId U c c' (graphOf env.rt.bin c.state graphId) := by
  refine effect_of_sameData hc (fun db => ?_) (silent_execCreateIndex ..) hgo
  apply keeps_execCreateIndex
  · exact fun index db' h => h.of_onlyIn (createIndex_onlyIn env.rt index) (by decide)
  · exact fun index node db' h => h.of_onlyIn (indexNode_onlyIn env.rt index node) (by decide)

theorem effect_execDropIndex (hc : Good env graphId U c) {name : String} {rs : ResultSet}
    (hgo : (execDropIndex env graphId name).Goes c rs c') :
    Effect env graphId U c c' (graphOf env.rt.bin c.state graphId) := by
  refine effect_of_sameData hc (fun db => ?_) ?_ hgo
  · apply keeps_execDropIndex
    exact fun g name db' h => h.of_onlyIn (dropIndex_onlyIn env.rt g name) (by decide)
  · exact silent_bind (silent_atomic _ _) fun _ => silent_pure _

theorem effect_execCreateGraph (hc : Good env graphId U c) {name : String} {ifNotExists : Bool}
    {rs : ResultSet} (hgo : (execCreateGraph env name ifNotExists).Goes c rs c') :
    Effect env graphId U c c' (graphOf env.rt.bin c.state graphId) := by
  refine effect_of_sameData hc (fun db => ?_) (silent_execCreateGraph name ifNotExists) hgo
  apply keeps_execCreateGraph
  exact fun m db' h => h.of_onlyIn (putGraphMeta_onlyIn env.rt m) (by decide)

variable (env graphId U) in
/-- Every run of the process that succeeds turns the graph into another one and reports the difference. -/
def Accounts {α : Type} (p : ExecM α) : Prop :=
  ∀ ⦃c a c'⦄, Good env graphId U c → Fresh U c'.drawn → p.Goes c a c' → ∃ G, Effect env graphId U c c' G

theorem accounts_of_reads {α : Type} {p : ExecM α} (hreads : p.Reads) (hsilent : p.Silent) :
    Accounts env graphId U p :=
  fun _ _ _ hc _ hgo => ⟨_, .of_reads hc hreads hsilent hgo⟩

theorem accounts_bind {α β : Type} {p : ExecM α} {f : α → ExecM β} (hp : Accounts env graphId U p)
    (hf : ∀ a, Accounts env graphId U (f a)) : Accounts env graphId U (p >>= f) := by
  intro c b c' hc hfresh hgo
  obtain ⟨a, c₁, hfirst, hrest⟩ := goes_bind.mp hgo
  obtain ⟨G, hG⟩ := hp hc (hfresh.of_isPrefix hrest.drawn_isPrefix) hfirst
  obtain ⟨G', hG'⟩ := hf a hG.good hfresh hrest
  exact ⟨G', hG.trans hG'⟩

theorem accounts_pure {α : Type} (a : α) : Accounts env graphId U (pure a : ExecM α) :=
  accounts_of_reads (reads_pure a) (silent_pure a)

theorem accounts_ofExcept {α : Type} (r : Except ExecError α) :
    Accounts env graphId U (.ofExcept r : ExecM α) :=
  accounts_of_reads (reads_ofExcept r) (silent_ofExcept r)

theorem accounts_createEdgeFromMatch (hedge : env.rt.bin.edge.RoundTrips) (rs : ResultSet)
    (sourceVar targetVar label : String) (properties : List (String × Expression)) :
    Accounts env graphId U (execCreateEdgeFromMatch env graphId rs sourceVar targetVar label properties) := by
  refine accounts_bind (fun c rows c' hc hfresh hgo => ?_) fun _ => accounts_pure _
  obtain ⟨es, -, -, -, heffect⟩ := effect_createEdgeRows hedge hc hfresh hgo
  exact ⟨_, heffect⟩

theorem accounts_setProperty (hnode : env.rt.bin.node.RoundTrips) (hedge : env.rt.bin.edge.RoundTrips)
    (rs : ResultSet) (target : Option String) (property : String) (value : Expression) :
    Accounts env graphId U (execSetProperty env graphId rs target property value) := by
  refine accounts_bind (fun c k c' hc _ hgo => ?_) fun _ => accounts_pure _
  obtain ⟨ass, -, heffect⟩ := effect_setRecords hnode hedge hc hgo
  exact ⟨_, heffect⟩

/-- **Every plan accounts for what it does**, by induction on it: one case for each operator. -/
theorem accounts_executeNode (hnode : env.rt.bin.node.RoundTrips) (hedge : env.rt.bin.edge.RoundTrips)
    {plan : LogicalPlan} (h : plan.keepsGraphs) : Accounts env graphId U (executeNode env graphId plan) := by
  induction plan with
  | scan labels graph var =>
    exact accounts_of_reads (reads_execScan env graphId labels var) (silent_execScan labels var)
  | filter input predicate ih => exact accounts_bind (ih h) fun _ => accounts_ofExcept _
  | project input expressions aliases ih => exact accounts_bind (ih h) fun _ => accounts_ofExcept _
  | expand input edgeLabel direction targetLabels edgeVar targetVar ih =>
    exact accounts_bind (ih h) fun _ =>
      accounts_of_reads (reads_execExpand env graphId _ _ _ _ _ _) (silent_execExpand ..)
  | sort input orderBy ih => exact accounts_bind (ih h) fun _ => accounts_ofExcept _
  | limit input count offset ih => exact accounts_bind (ih h) fun _ => accounts_pure _
  | distinct input ih => exact accounts_bind (ih h) fun _ => accounts_pure _
  | join left right ihl ihr =>
    rw [LogicalPlan.keepsGraphs, Bool.and_eq_true] at h
    exact accounts_bind (ihl h.1) fun _ => accounts_bind (ihr h.2) fun _ => accounts_pure _
  | createNode labels properties =>
    intro c rs c' hc hfresh hgo
    obtain ⟨props, -, -, heffect⟩ := effect_createNode hnode hc hfresh hgo
    exact ⟨_, heffect⟩
  | createEdgeFromMatch input sourceVar targetVar label properties ih =>
    exact accounts_bind (ih h) fun rs => accounts_createEdgeFromMatch hedge rs _ _ _ _
  | deleteNode input targets detach ih =>
    exact accounts_bind (ih h) fun rs c _ c' hc _ hgo => ⟨_, (effect_execDeleteNodes hc hgo).2⟩
  | setProperty input target property value ih =>
    exact accounts_bind (ih h) fun rs => accounts_setProperty hnode hedge rs _ _ _
  | createIndex name unique entityType label propertyNames =>
    exact fun c _ c' hc _ hgo => ⟨_, effect_execCreateIndex hc hgo⟩
  | dropIndex name => exact fun c _ c' hc _ hgo => ⟨_, effect_execDropIndex hc hgo⟩
  | createGraph name ifNotExists => exact fun c _ c' hc _ hgo => ⟨_, effect_execCreateGraph hc hgo⟩
  | dropGraph name ifExists => cases h
  | callProcedure procedure arguments yieldItems =>
    exact accounts_of_reads (reads_execCallProcedure env graphId procedure yieldItems)
      (silent_execCallProcedure procedure yieldItems)
  | indexScan indexName labels var props values remaining =>
    exact accounts_of_reads (reads_execIndexScan env graphId indexName labels var values remaining)
      (silent_execIndexScan indexName labels var values remaining)
  | listGraphs =>
    exact accounts_bind (accounts_of_reads (reads_query _ _) (silent_query _ _)) fun _ => accounts_pure _
  | empty => exact accounts_pure _
  | aggregate | createEdge | union => exact accounts_of_reads (reads_fail _) (silent_fail _)

end Plans

/-! ## Programs -/

/-- **The statistics are exact**: what the graph has more nodes after a program that succeeds is what the
program reports as created less what it reports as deleted, and the same for the edges. -/
theorem statistics_exact (env : Env) (hnode : env.rt.bin.node.RoundTrips)
    (hedge : env.rt.bin.edge.RoundTrips) (requests : List Request) (request : Request)
    (hkeeps : ∀ name ifExists, .dropGraph name ifExists ∉ request.program.statements) :
    let db := Run.exec (Request.exec env) Db.empty requests
    let program := executeProgram env request.graphId request.program
    let ended := program.run request.draws db
    let before := graphOf env.rt.bin db request.graphId
    let after := graphOf env.rt.bin ended.state request.graphId
    let stats := ExecStats.total ended.reports
    Fresh before.uuids (program.draws request.draws db) → ∀ rs, ended.result = .ok rs →
      (after.nodes.count : Int) - before.nodes.count = stats.nodesCreated - stats.nodesDeleted ∧
        (after.edges.count : Int) - before.edges.count = stats.edgesCreated - stats.edgesDeleted := by
  intro db program ended before after stats hfresh rs hrs
  obtain ⟨plan, hplan, hgo⟩ := goes_executeProgram (goes_of_result hrs)
  have hgood : Good env request.graphId before.uuids (.start request.draws db) :=
    ⟨run_sound hnode hedge requests, fun u hu => .inl hu⟩
  have hkept : plan.keepsGraphs := QueryPlanner.keepsGraphs_plan hkeeps hplan
  obtain ⟨G, hG⟩ := accounts_executeNode hnode hedge (keepsGraphs_optimized db hkept) hgood hfresh hgo
  have hafter : after = G := hG.becomes.graph
  have hnodes : after.nodes.count + stats.nodesDeleted = before.nodes.count + stats.nodesCreated := by
    rw [hafter]
    exact hG.nodes
  have hedges : after.edges.count + stats.edgesDeleted = before.edges.count + stats.edgesCreated := by
    rw [hafter]
    exact hG.edges
  omega

/-- `INSERT (:Person {p: 1})` into an empty store, which gets one node more. -/
theorem statistics_exact_insert :
    let db := Request.exec (sampleEnv indexBincode) Db.empty insertWithP
    ((graphOf indexBincode db sampleGraph).nodes.count : Int) -
      (graphOf indexBincode Db.empty sampleGraph).nodes.count = 1 := by
  intro db
  obtain ⟨hnode, hedge, -⟩ := indexBincode_roundTrips
  have hfresh : Fresh (graphOf indexBincode Db.empty sampleGraph).uuids
      ((executeProgram (sampleEnv indexBincode) sampleGraph insertWithP.program).draws sampleDraws
        Db.empty) :=
    fresh_empty (by decide)
  have hdrops : ∀ name ifExists, .dropGraph name ifExists ∉ insertWithP.program.statements := by
    simp [insertWithP]
  have hok : ((executeProgram (sampleEnv indexBincode) insertWithP.graphId insertWithP.program).run
      insertWithP.draws Db.empty).result =
        .ok (.ofRows ["__node_id"] [[.string (sampleId 1).toString]]) := by
    decide
  have hcreated : ExecStats.total ((executeProgram (sampleEnv indexBincode) insertWithP.graphId
      insertWithP.program).run insertWithP.draws Db.empty).reports = ⟨1, 0, 0, 0, 0⟩ := by
    decide
  have hexact := (@statistics_exact (sampleEnv indexBincode) hnode hedge [] insertWithP hdrops hfresh _
    hok).1
  have hempty : Run.exec (Request.exec (sampleEnv indexBincode)) Db.empty [] = Db.empty := rfl
  rw [hempty, hcreated] at hexact
  exact hexact

end Synaptica.Exec
