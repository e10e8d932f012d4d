import Synaptica.Exec.Engine
import Synaptica.Gql.PlanShape

/-!
# Plans that do not write

Which operators write to the store is visible in the plan. A plan without one leaves the store as it
is, whether it succeeds or fails, and so does the optimizer, which only looks at the index
definitions.
-/

namespace Synaptica.Exec

open Gql Storage Process

variable (env : Env) (graphId : GraphId)

/-! ## Reading operators leave the store alone -/

theorem reads_query {α : Type} (f : Db → StorageResult α) (wrap : StorageError → ExecError) :
    (query f wrap).Reads := reads_read _

theorem reads_tryQuery {α : Type} (f : Db → StorageResult α) : (tryQuery f).Reads := reads_read _

theorem reads_parseId (what s : String) : (parseId env what s).Reads := by
  unfold parseId
  split
  · exact reads_pure _
  · exact reads_fail _

theorem reads_hashOrder (keys : List String) : (hashOrder keys).Reads :=
  reads_bind reads_drawn fun _ => reads_pure _

theorem reads_execScan (labels : List String) (var : Option String) :
    (execScan env graphId labels var).Reads :=
  reads_bind (reads_query _ _) fun _ => reads_bind (reads_hashOrder _) fun _ => reads_pure _

theorem reads_edgesAt (nodeId : NodeId) (direction : Direction) (label : Option Label) :
    (edgesAt env graphId nodeId direction label).Reads := by
  unfold edgesAt
  cases direction with
  | outgoing => exact reads_query _ _
  | incoming => exact reads_query _ _
  | undirected =>
    exact reads_bind (reads_query _ _) fun _ => reads_bind (reads_query _ _) fun _ => reads_pure _

theorem reads_expandEdges (nodeId : NodeId) (direction : Direction) (targetLabels : List String)
    (sourceValues : List Value) (edges : List Edge) :
    (expandEdges env graphId nodeId direction targetLabels sourceValues edges).Reads := by
  induction edges with
  | nil => exact reads_pure _
  | cons edge edges ih =>
    refine reads_bind (reads_tryQuery _) fun target => reads_bind ih fun rest => ?_
    split
    · split <;> exact reads_pure _
    · exact reads_pure _

theorem reads_expandRecords (direction : Direction) (label : Option Label)
    (targetLabels : List String) (records : List Record) :
    (expandRecords env graphId direction label targetLabels records).Reads := by
  induction records with
  | nil => exact reads_pure _
  | cons record records ih =>
    exact reads_bind (reads_ofExcept _) fun _ => reads_bind (reads_parseId env _ _) fun _ =>
      reads_bind (reads_edgesAt env graphId _ _ _) fun _ =>
      reads_bind (reads_expandEdges env graphId _ _ _ _ _) fun _ =>
      reads_bind ih fun _ => reads_pure _

theorem reads_execExpand (input : ResultSet) (edgeLabel : String) (direction : Direction)
    (targetLabels : List String) (edgeVar targetVar : Option String) :
    (execExpand env graphId input edgeLabel direction targetLabels edgeVar targetVar).Reads :=
  reads_bind (reads_expandRecords env graphId _ _ _ _) fun _ =>
    reads_bind (reads_hashOrder _) fun _ => reads_bind (reads_hashOrder _) fun _ => reads_pure _

theorem reads_loadNodes (labels : List String) (ids : List NodeId) :
    (loadNodes env graphId labels ids).Reads := by
  induction ids with
  | nil => exact reads_pure _
  | cons id ids ih =>
    refine reads_bind (reads_tryQuery _) fun found => reads_bind ih fun rest => ?_
    split <;> exact reads_pure _

theorem reads_execIndexScan (indexName : String) (labels : List String) (var : Option String)
    (lookupValues : List Expression) (remaining : Option Expression) :
    (execIndexScan env graphId indexName labels var lookupValues remaining).Reads := by
  refine reads_bind (reads_query _ _) fun _ => reads_bind (reads_ofExcept _) fun _ =>
    reads_bind (reads_ofExcept _) fun _ => reads_bind (reads_query _ _) fun _ =>
    reads_bind (reads_loadNodes env graphId _ _) fun _ => reads_bind (reads_hashOrder _) fun _ => ?_
  split
  · exact reads_ofExcept _
  · exact reads_pure _

theorem reads_outgoingOfAll (nodes : List Node) : (outgoingOfAll env graphId nodes).Reads := by
  induction nodes with
  | nil => exact reads_pure _
  | cons node nodes ih =>
    exact reads_bind (reads_query _ _) fun _ => reads_bind ih fun _ => reads_pure _

theorem reads_procedureResult (procedure : String) :
    (procedureResult env graphId procedure).Reads := by
  unfold procedureResult
  dsimp only
  -- all but the labels and the node count go on to the edges of the nodes
  split
  case h_1 => exact reads_bind (reads_query _ _) fun _ => reads_pure _
  case h_6 => exact reads_bind (reads_query _ _) fun _ => reads_pure _
  case h_8 => exact reads_fail _
  all_goals
    exact reads_bind (reads_query _ _) fun _ =>
      reads_bind (reads_outgoingOfAll env graphId _) fun _ => reads_pure _

theorem reads_execCallProcedure (procedure : String) (yieldItems : Option (List String)) :
    (execCallProcedure env graphId procedure yieldItems).Reads := by
  refine reads_bind (reads_procedureResult env graphId _) fun result => ?_
  split <;> exact reads_pure _

/-- A plan without a write operator leaves the store as it is. -/
theorem reads_executeNode {plan : LogicalPlan} (h : plan.readOnly) :
    (executeNode env graphId plan).Reads := by
  induction plan with
  | scan labels graph var => exact reads_execScan env graphId labels var
  | filter input predicate ih => exact reads_bind (ih h) fun _ => reads_ofExcept _
  | project input expressions aliases ih => exact reads_bind (ih h) fun _ => reads_ofExcept _
  | expand input edgeLabel direction targetLabels edgeVar targetVar ih =>
    exact reads_bind (ih h) fun _ => reads_execExpand env graphId _ _ _ _ _ _
  | join left right ihl ihr =>
    simp only [LogicalPlan.readOnly, Bool.and_eq_true] at h
    exact reads_bind (ihl h.1) fun _ => reads_bind (ihr h.2) fun _ => reads_pure _
  | sort input orderBy ih => exact reads_bind (ih h) fun _ => reads_ofExcept _
  | limit input count offset ih => exact reads_bind (ih h) fun _ => reads_pure _
  | distinct input ih => exact reads_bind (ih h) fun _ => reads_pure _
  | callProcedure procedure arguments yieldItems =>
    exact reads_execCallProcedure env graphId procedure yieldItems
  | empty => exact reads_pure _
  | indexScan indexName labels var props values remaining =>
    exact reads_execIndexScan env graphId indexName labels var values remaining
  | listGraphs => exact reads_bind (reads_query _ _) fun _ => reads_pure _
  | aggregate | createEdge | union => exact reads_fail _
  | createNode | deleteNode | setProperty | createEdgeFromMatch | createIndex | dropIndex
  | createGraph | dropGraph => simp [LogicalPlan.readOnly] at h

/-! ## What the optimizer makes of a plan -/

/-- The rewrite of a filter, given the index definitions. -/
def rewriteFilter (db : Db) (input : LogicalPlan) (predicate : Expression) : LogicalPlan :=
  match input with
  | .scan labels graph var =>
    match IndexManager.listIndexes env.rt db graphId with
    | .ok indexes =>
      (tryIndexScan indexes labels var predicate).getD (.filter (.scan labels graph var) predicate)
    | .error _ => .filter (.scan labels graph var) predicate
  | _ => .filter input predicate

/-- The optimized plan, as a function of the store. -/
def optimized (db : Db) : LogicalPlan → LogicalPlan
  | .filter input predicate => rewriteFilter env graphId db (optimized db input) predicate
  | .project input expressions aliases => .project (optimized db input) expressions aliases
  | .sort input orderBy => .sort (optimized db input) orderBy
  | .limit input count offset => .limit (optimized db input) count offset
  | .distinct input => .distinct (optimized db input)
  | .expand input edgeLabel direction targetLabels edgeVar targetVar =>
    .expand (optimized db input) edgeLabel direction targetLabels edgeVar targetVar
  | .deleteNode input targets detach => .deleteNode (optimized db input) targets detach
  | .setProperty input target property value =>
    .setProperty (optimized db input) target property value
  | .join left right => .join (optimized db left) (optimized db right)
  | other => other

theorem run_optimizeFilter (input : LogicalPlan) (predicate : Expression) (ω : Stream' Draw)
    (db : Db) : (optimizeFilter env graphId input predicate).run ω db =
      ⟨.ok (rewriteFilter env graphId db input predicate), db, ω, []⟩ := by
  cases input with
  | scan labels graph var =>
    simp only [optimizeFilter, rewriteFilter, tryQuery, run_bind, run_read, Ended.andThen]
    cases IndexManager.listIndexes env.rt db graphId <;> rfl
  | _ => rfl

/-- The optimizer answers `optimized` and touches nothing. -/
theorem run_optimize (plan : LogicalPlan) (ω : Stream' Draw) (db : Db) :
    (optimize env graphId plan).run ω db = ⟨.ok (optimized env graphId db plan), db, ω, []⟩ := by
  induction plan with
  | filter input predicate ih =>
    rw [optimize, run_bind, ih, Ended.andThen]
    simp only [run_optimizeFilter, List.nil_append, optimized]
  | join left right ihl ihr =>
    rw [optimize, run_bind, ihl, Ended.andThen]
    simp only [run_bind, ihr, Ended.andThen, run_pure, List.nil_append, optimized]
  | project input _ _ ih | sort input _ ih | limit input _ _ ih | distinct input ih
  | expand input _ _ _ _ _ ih | deleteNode input _ _ ih | setProperty input _ _ _ ih =>
    rw [optimize, run_bind, ih, Ended.andThen]
    simp only [run_pure, List.nil_append, optimized]
  | _ => rfl

/-- Executing a plan is executing its optimized form. -/
theorem run_executePlan (plan : LogicalPlan) (ω : Stream' Draw) (db : Db) :
    (executePlan env graphId plan).run ω db =
      (executeNode env graphId (optimized env graphId db plan)).run ω db := by
  rw [executePlan, run_bind, run_optimize, Ended.andThen]
  simp

theorem tryIndexScan_eq_some {indexes : List IndexDefinition} {labels : List String}
    {var : Option String} {predicate : Expression} {plan : LogicalPlan}
    (h : tryIndexScan indexes labels var predicate = some plan) :
    ∃ name props values remaining, plan = .indexScan name labels var props values remaining := by
  obtain ⟨index, -, hindex⟩ := List.exists_of_findSome?_eq_some h
  unfold indexScanFor at hindex
  split at hindex
  · cases hindex
  · split at hindex
    · cases hindex
    · cases hindex
    · cases hindex
      exact ⟨_, _, _, _, rfl⟩

/-- A rewritten filter reads as much as its input does. -/
theorem readOnly_rewriteFilter (db : Db) (input : LogicalPlan) (predicate : Expression) :
    (rewriteFilter env graphId db input predicate).readOnly = input.readOnly := by
  unfold rewriteFilter
  split
  · split
    · rename_i indexes _
      cases h : tryIndexScan indexes _ _ predicate with
      | none => rfl
      | some plan =>
        obtain ⟨_, _, _, _, rfl⟩ := tryIndexScan_eq_some h
        rfl
    · rfl
  · rfl

/-- Optimizing a plan keeps whether it writes. -/
theorem readOnly_optimized (db : Db) (plan : LogicalPlan) :
    (optimized env graphId db plan).readOnly = plan.readOnly := by
  induction plan with
  | filter input predicate ih => rw [optimized, readOnly_rewriteFilter, ih, LogicalPlan.readOnly]
  | join left right ihl ihr =>
    rw [optimized, LogicalPlan.readOnly, LogicalPlan.readOnly, ihl, ihr]
  | project input _ _ ih | sort input _ ih | limit input _ _ ih | distinct input ih
  | expand input _ _ _ _ _ ih => rw [optimized, LogicalPlan.readOnly, LogicalPlan.readOnly, ih]
  | _ => rfl

/-! ## Read operators over a plan -/

/-- A program whose plan has no write operator leaves the store as it is. -/
theorem state_executePlan {plan : LogicalPlan} (h : plan.readOnly) (ω : Stream' Draw) (db : Db) :
    ((executePlan env graphId plan).run ω db).state = db := by
  rw [run_executePlan]
  have hopt : (optimized env graphId db plan).readOnly := by rwa [readOnly_optimized]
  exact (reads_executeNode env graphId hopt).state_eq ω db

end Synaptica.Exec
