import Synaptica.Exec.Reading
import Synaptica.Exec.Upkeep
import Synaptica.Lib.Success

/-!
# Successful runs of the engine

How a storage call, an operator, the optimizer and a program succeed. An operator that only reads leaves
the store as it is and reports nothing.
-/

namespace Synaptica.Exec

open Gql Storage Process

/-! ## Calls -/

section Calls

variable {α : Type} {a : α} {c c' : Config Db Draw ExecStats} {wrap : StorageError → ExecError}

theorem goes_call {m : StorageM α} : (call m wrap).Goes c a c' ↔
    (m c.state).result = .ok a ∧ c' = { c with state := m.exec c.state } := by
  rw [call, goes_atomic]
  cases (m c.state).result <;> simp [Except.mapError]

theorem goes_query {f : Db → StorageResult α} :
    (query f wrap).Goes c a c' ↔ f c.state = .ok a ∧ c' = c := by
  rw [query, goes_read]
  cases f c.state <;> simp [Except.mapError]

theorem goes_tryQuery {f : Db → StorageResult α} {r : StorageResult α} :
    (tryQuery f).Goes c r c' ↔ f c.state = r ∧ c' = c := by
  rw [tryQuery, goes_read, Except.ok.injEq]

theorem goes_parseId {env : Env} {what s : String} {u : Uuid} :
    (parseId env what s).Goes c u c' ↔ env.parseUuid s = .ok u ∧ c' = c := by
  unfold parseId
  cases env.parseUuid s with
  | ok u' => simp [goes_pure]
  | error e => simp [not_goes_fail]

end Calls

/-! ## Operators that only read -/

section Silent

variable {env : Env} {graphId : GraphId}

theorem silent_query {α : Type} (f : Db → StorageResult α) (wrap : StorageError → ExecError) :
    (query f wrap).Silent := silent_atomic _ _

theorem silent_tryQuery {α : Type} (f : Db → StorageResult α) : (tryQuery f).Silent := silent_atomic _ _

theorem silent_hashOrder (keys : List String) : (hashOrder keys).Silent :=
  silent_bind silent_drawn fun _ => silent_pure _

theorem silent_execScan (labels : List String) (var : Option String) :
    (execScan env graphId labels var).Silent :=
  silent_bind (silent_query _ _) fun _ => silent_bind (silent_hashOrder _) fun _ => silent_pure _

theorem silent_execExpand (input : ResultSet) (edgeLabel : String) (direction : Direction)
    (targetLabels : List String) (edgeVar targetVar : Option String) :
    (execExpand env graphId input edgeLabel direction targetLabels edgeVar targetVar).Silent :=
  silent_bind (looks_expandRecords env graphId _ _ _ _).silent fun _ =>
    silent_bind (silent_hashOrder _) fun _ => silent_bind (silent_hashOrder _) fun _ => silent_pure _

theorem silent_execIndexScan (indexName : String) (labels : List String) (var : Option String)
    (lookupValues : List Expression) (remaining : Option Expression) :
    (execIndexScan env graphId indexName labels var lookupValues remaining).Silent := by
  refine silent_bind (silent_query _ _) fun _ => silent_bind (silent_ofExcept _) fun _ =>
    silent_bind (silent_ofExcept _) fun _ => silent_bind (silent_query _ _) fun _ =>
    silent_bind (looks_loadNodes env graphId _ _).silent fun _ =>
    silent_bind (silent_hashOrder _) fun _ => ?_
  split
  · exact silent_ofExcept _
  · exact silent_pure _

theorem silent_outgoingOfAll (nodes : List Node) : (outgoingOfAll env graphId nodes).Silent := by
  induction nodes with
  | nil => exact silent_pure _
  | cons node nodes ih =>
    exact silent_bind (silent_query _ _) fun _ => silent_bind ih fun _ => silent_pure _

theorem silent_execCallProcedure (procedure : String) (yieldItems : Option (List String)) :
    (execCallProcedure env graphId procedure yieldItems).Silent := by
  have hresult : (procedureResult env graphId procedure).Silent := by
    unfold procedureResult
    dsimp only
    split
    case h_1 => exact silent_bind (silent_query _ _) fun _ => silent_pure _
    case h_6 => exact silent_bind (silent_query _ _) fun _ => silent_pure _
    case h_8 => exact silent_fail _
    all_goals
      exact silent_bind (silent_query _ _) fun _ =>
        silent_bind (silent_outgoingOfAll _) fun _ => silent_pure _
  refine silent_bind hresult fun result => ?_
  split <;> exact silent_pure _

/-- A plan without a write operator reports nothing. -/
theorem silent_executeNode {plan : LogicalPlan} (h : plan.readOnly) :
    (executeNode env graphId plan).Silent := by
  induction plan with
  | scan labels graph var => exact silent_execScan labels var
  | filter input predicate ih => exact silent_bind (ih h) fun _ => silent_ofExcept _
  | project input expressions aliases ih => exact silent_bind (ih h) fun _ => silent_ofExcept _
  | expand input edgeLabel direction targetLabels edgeVar targetVar ih =>
    exact silent_bind (ih h) fun _ => silent_execExpand ..
  | join left right ihl ihr =>
    simp only [LogicalPlan.readOnly, Bool.and_eq_true] at h
    exact silent_bind (ihl h.1) fun _ => silent_bind (ihr h.2) fun _ => silent_pure _
  | sort input orderBy ih => exact silent_bind (ih h) fun _ => silent_ofExcept _
  | limit input count offset ih => exact silent_bind (ih h) fun _ => silent_pure _
  | distinct input ih => exact silent_bind (ih h) fun _ => silent_pure _
  | callProcedure procedure arguments yieldItems => exact silent_execCallProcedure procedure yieldItems
  | empty => exact silent_pure _
  | indexScan indexName labels var props values remaining =>
    exact silent_execIndexScan indexName labels var values remaining
  | listGraphs => exact silent_bind (silent_query _ _) fun _ => silent_pure _
  | aggregate | createEdge | union => exact silent_fail _
  | createNode | deleteNode | setProperty | createEdgeFromMatch | createIndex | dropIndex
  | createGraph | dropGraph => simp [LogicalPlan.readOnly] at h

end Silent

/-! ## Programs -/

section Programs

variable {env : Env} {g : GraphId} {c c' : Config Db Draw ExecStats} {p : LogicalPlan}

theorem goes_optimizeFilter {input : LogicalPlan} {predicate : Expression} :
    (optimizeFilter env g input predicate).Goes c p c' ↔
      rewriteFilter env g c.state input predicate = p ∧ c' = c := by
  cases input with
  | scan labels graph var =>
    simp only [optimizeFilter, rewriteFilter, goes_bind, goes_tryQuery, and_assoc, exists_and_left,
      exists_eq_left']
    cases IndexManager.listIndexes env.rt c.state g with
    | ok indexes => simp [goes_pure]
    | error e => simp [goes_pure]
  | _ => exact goes_pure

/-- The optimizer draws nothing either. -/
theorem goes_optimize {plan : LogicalPlan} :
    (optimize env g plan).Goes c p c' ↔ optimized env g c.state plan = p ∧ c' = c := by
  induction plan generalizing c c' p with
  | filter input predicate ih =>
    simp only [optimize, optimized, goes_bind, ih, goes_optimizeFilter, and_assoc, exists_and_left,
      exists_eq_left', exists_eq_left]
  | join left right ihl ihr =>
    simp only [optimize, optimized, goes_bind, ihl, ihr, goes_pure, and_assoc, exists_and_left,
      exists_eq_left', exists_eq_left]
  | project _ _ _ ih | sort _ _ ih | limit _ _ _ ih | distinct _ ih | expand _ _ _ _ _ _ ih
  | deleteNode _ _ _ ih | setProperty _ _ _ _ ih =>
    simp only [optimize, optimized, goes_bind, ih, goes_pure, and_assoc, exists_and_left, exists_eq_left',
      exists_eq_left]
  | _ => exact goes_pure

/-- A program that succeeds, taken apart. -/
theorem goes_executeProgram {P : GqlProgram} {rs : ResultSet}
    (hgo : (executeProgram env g P).Goes c rs c') : ∃ plan, QueryPlanner.plan P = .ok plan ∧
      (executeNode env g (optimized env g c.state plan)).Goes c rs c' := by
  rw [executeProgram] at hgo
  cases hplan : QueryPlanner.plan P with
  | error e =>
    rw [hplan] at hgo
    exact absurd hgo not_goes_fail
  | ok plan =>
    rw [hplan] at hgo
    obtain ⟨p, c₁, hopt, hrest⟩ := goes_bind.mp (goes_mapError.mp hgo)
    obtain ⟨rfl, rfl⟩ := goes_optimize.mp hopt
    exact ⟨plan, rfl, hrest⟩

end Programs

/-! ## What a `MATCH` finds -/

section Matches

variable {env : Env} {g : GraphId} {m : MatchStatement} {ω : Stream' Draw} {db : Db} {rs : ResultSet}

variable (env g m ω db rs) in
/-- The `MATCH` at the start of a program finds these rows. -/
def Matches : Prop :=
  ∃ base, QueryPlanner.planMatch m none = .ok base ∧ ((executePlan env g base).run ω db).result = .ok rs

/-- The plan of a `MATCH` with one statement behind it. -/
theorem plan_match {stmt : GqlStatement} {plan : LogicalPlan}
    (h : QueryPlanner.plan ⟨[.matchStmt m, stmt]⟩ = .ok plan) :
    ∃ base, QueryPlanner.planMatch m none = .ok base ∧
      QueryPlanner.planStatement stmt (some base) = .ok plan := by
  obtain ⟨current, hcurrent, rfl⟩ := QueryPlanner.plan_eq_ok.mp h
  obtain ⟨base, hbase, hrest⟩ := QueryPlanner.planFrom_cons_eq_ok.mp hcurrent
  obtain ⟨plan, hplan, hnil⟩ := QueryPlanner.planFrom_cons_eq_ok.mp hrest
  cases hnil
  exact ⟨base, hbase, hplan⟩

/-- What works on the rows of a `MATCH` meets them in the store as it was. -/
theorem Matches.goes_bind (h : Matches env g m ω db rs) {base : LogicalPlan}
    (hbase : QueryPlanner.planMatch m none = .ok base) {α : Type} {f : ResultSet → ExecM α} {a : α}
    {c' : Config Db Draw ExecStats}
    (hgo : (executeNode env g (optimized env g db base) >>= f).Goes (.start ω db) a c') :
    ∃ c, c.state = db ∧ c.reports = [] ∧ (f rs).Goes c a c' := by
  obtain ⟨base', hbase', hrun⟩ := h
  cases hbase.symm.trans hbase'
  have hreads : (optimized env g db base).readOnly := by
    rw [readOnly_optimized, QueryPlanner.readOnly_planMatch hbase]
    exact Bool.or_true _
  rw [run_executePlan] at hrun
  obtain ⟨rs', c, hfirst, hrest⟩ := Process.goes_bind.mp hgo
  obtain ⟨rfl, rfl⟩ := hfirst.unique (goes_of_result hrun)
  exact ⟨_, (reads_executeNode env g hreads).goes hfirst, silent_executeNode hreads hfirst, hrest⟩

end Matches

end Synaptica.Exec
