import Synaptica.Exec.ReadOnly
import Synaptica.Lib.Run

/-!
# What every program keeps

A plan changes the store only where one of its write operators works on the rows it is given. So what
each write operator keeps, under a condition on the operator, its rows and the store it meets, is kept by
every plan, by every program, and by every run of programs one after the other.
-/

namespace Synaptica.Exec

open Gql Storage Process

/-! ## Write operators -/

section Plans

variable (env : Env) (graphId : GraphId)

/-- What a write operator does with the rows of its input; the other operators write nothing. -/
def writeOf : LogicalPlan → ResultSet → ExecM ResultSet
  | .createNode labels properties, _ => execCreateNode env graphId labels properties
  | .createEdgeFromMatch _ sourceVar targetVar label properties, rs =>
    execCreateEdgeFromMatch env graphId rs sourceVar targetVar label properties
  | .deleteNode _ targets _, rs => execDeleteNodes env graphId rs targets
  | .setProperty _ target property value, rs => execSetProperty env graphId rs target property value
  | .createIndex name unique entityType label propertyNames, _ =>
    execCreateIndex env graphId name unique entityType label propertyNames
  | .dropIndex name, _ => execDropIndex env graphId name
  | .createGraph name ifNotExists, _ => execCreateGraph env name ifNotExists
  | .dropGraph name ifExists, _ => execDropGraph env name ifExists
  | _, rs => pure rs

/-- The rows of an operator that has no input. -/
def noRows : ResultSet := .ofRows [] []

/-- A condition on the write operators that are executed: the operator, the rows it is given, and the
draws and the store it meets. -/
abbrev WriteCondition := LogicalPlan → ResultSet → Stream' Draw → Db → Prop

/-- Every write operator of a plan meets the condition when it is executed. -/
def EachWrite (p : WriteCondition) : LogicalPlan → Stream' Draw → Db → Prop
  | .createNode labels properties, ω, db => p (.createNode labels properties) noRows ω db
  | .createIndex name unique entityType label propertyNames, ω, db =>
    p (.createIndex name unique entityType label propertyNames) noRows ω db
  | .dropIndex name, ω, db => p (.dropIndex name) noRows ω db
  | .createGraph name ifNotExists, ω, db => p (.createGraph name ifNotExists) noRows ω db
  | .dropGraph name ifExists, ω, db => p (.dropGraph name ifExists) noRows ω db
  | .createEdgeFromMatch input sourceVar targetVar label properties, ω, db =>
    let ended := (executeNode env graphId input).run ω db
    EachWrite p input ω db ∧ ∀ rs, ended.result = .ok rs →
      p (.createEdgeFromMatch input sourceVar targetVar label properties) rs ended.rest ended.state
  | .deleteNode input targets detach, ω, db =>
    let ended := (executeNode env graphId input).run ω db
    EachWrite p input ω db ∧ ∀ rs, ended.result = .ok rs →
      p (.deleteNode input targets detach) rs ended.rest ended.state
  | .setProperty input target property value, ω, db =>
    let ended := (executeNode env graphId input).run ω db
    EachWrite p input ω db ∧ ∀ rs, ended.result = .ok rs →
      p (.setProperty input target property value) rs ended.rest ended.state
  | .join left right, ω, db =>
    let ended := (executeNode env graphId left).run ω db
    EachWrite p left ω db ∧ ∀ rs, ended.result = .ok rs → EachWrite p right ended.rest ended.state
  | .filter input _, ω, db | .project input _ _, ω, db | .expand input _ _ _ _ _, ω, db
  | .sort input _, ω, db | .limit input _ _, ω, db | .distinct input, ω, db => EachWrite p input ω db
  | _, _, _ => True

variable {env graphId}

/-- **What every write operator keeps, every plan keeps**, by induction on the plan: one case for each
operator. -/
theorem state_executeNode {I : Db → Prop} {p : WriteCondition}
    (hwrite : ∀ plan rs ω db, p plan rs ω db → I db → I ((writeOf env graphId plan rs).run ω db).state)
    {plan : LogicalPlan} {ω : Stream' Draw} {db : Db} (h : EachWrite env graphId p plan ω db) (hdb : I db) :
    I ((executeNode env graphId plan).run ω db).state := by
  have hread : ∀ {m : ExecM ResultSet} {ω : Stream' Draw} {db : Db}, m.Reads → I db →
      I (m.run ω db).state := fun hm hdb => hm.keeps I _ _ hdb
  induction plan generalizing ω db with
  | scan labels graph var => exact hread (reads_execScan env graphId labels var) hdb
  | filter input predicate ih =>
    exact state_bind (ih h hdb) fun _ _ => hread (reads_ofExcept _) (ih h hdb)
  | project input expressions aliases ih =>
    exact state_bind (ih h hdb) fun _ _ => hread (reads_ofExcept _) (ih h hdb)
  | expand input edgeLabel direction targetLabels edgeVar targetVar ih =>
    exact state_bind (ih h hdb) fun _ _ =>
      hread (reads_execExpand env graphId _ _ _ _ _ _) (ih h hdb)
  | sort input orderBy ih =>
    exact state_bind (ih h hdb) fun _ _ => hread (reads_ofExcept _) (ih h hdb)
  | limit input count offset ih =>
    exact state_bind (ih h hdb) fun _ _ => hread (reads_pure _) (ih h hdb)
  | distinct input ih => exact state_bind (ih h hdb) fun _ _ => hread (reads_pure _) (ih h hdb)
  | join left right ihl ihr =>
    refine state_bind (ihl h.1 hdb) fun rs hrs => ?_
    have hright := ihr (h.2 rs hrs) (ihl h.1 hdb)
    exact state_bind hright fun _ _ => hread (reads_pure _) hright
  | createNode labels properties => exact hwrite (.createNode labels properties) _ _ _ h hdb
  | createEdgeFromMatch input sourceVar targetVar label properties ih =>
    refine state_bind (ih h.1 hdb) fun rs hrs => ?_
    exact hwrite (.createEdgeFromMatch input sourceVar targetVar label properties) rs _ _ (h.2 rs hrs)
      (ih h.1 hdb)
  | deleteNode input targets detach ih =>
    refine state_bind (ih h.1 hdb) fun rs hrs => ?_
    exact hwrite (.deleteNode input targets detach) rs _ _ (h.2 rs hrs) (ih h.1 hdb)
  | setProperty input target property value ih =>
    refine state_bind (ih h.1 hdb) fun rs hrs => ?_
    exact hwrite (.setProperty input target property value) rs _ _ (h.2 rs hrs) (ih h.1 hdb)
  | createIndex name unique entityType label propertyNames =>
    exact hwrite (.createIndex name unique entityType label propertyNames) _ _ _ h hdb
  | dropIndex name => exact hwrite (.dropIndex name) _ _ _ h hdb
  | createGraph name ifNotExists => exact hwrite (.createGraph name ifNotExists) _ _ _ h hdb
  | dropGraph name ifExists => exact hwrite (.dropGraph name ifExists) _ _ _ h hdb
  | callProcedure procedure arguments yieldItems =>
    exact hread (reads_execCallProcedure env graphId procedure yieldItems) hdb
  | indexScan indexName labels var props values remaining =>
    exact hread (reads_execIndexScan env graphId indexName labels var values remaining) hdb
  | listGraphs => exact hread (reads_bind (reads_query _ _) fun _ => reads_pure _) hdb
  | empty => exact hdb
  | aggregate | createEdge | union => exact hdb

end Plans

/-! ## Runs of programs -/

/-- A program that is executed on a graph, and what is drawn for it. -/
structure Request where
  graphId : GraphId
  program : GqlProgram
  draws : Stream' Draw

namespace Request

variable (env : Env)

/-- The store after the program, whether it succeeded or failed. -/
def exec (db : Db) (request : Request) : Db :=
  ((executeProgram env request.graphId request.program).run request.draws db).state

/-- Every write operator that the program executes meets the condition. -/
def EachWrite (p : GraphId → WriteCondition) (db : Db) (request : Request) : Prop :=
  ∀ plan, QueryPlanner.plan request.program = .ok plan →
    Exec.EachWrite env request.graphId (p request.graphId)
      (optimized env request.graphId db plan) request.draws db

variable {env} {I : Db → Prop} {p : GraphId → WriteCondition}

/-- What every write operator keeps, every program keeps. -/
theorem invariant (hwrite : ∀ graphId plan rs ω db, p graphId plan rs ω db → I db →
      I ((writeOf env graphId plan rs).run ω db).state) {db : Db} {request : Request}
    (h : request.EachWrite env p db) (hdb : I db) : I (request.exec env db) := by
  rw [exec, executeProgram]
  cases hplan : QueryPlanner.plan request.program with
  | error e => exact hdb
  | ok plan =>
    dsimp only
    rw [run_mapError, run_executePlan]
    exact state_executeNode (hwrite request.graphId) (h plan hplan) hdb

/-- **What every write operator keeps, every run of programs keeps.** -/
theorem run_invariant (hwrite : ∀ graphId plan rs ω db, p graphId plan rs ω db → I db →
      I ((writeOf env graphId plan rs).run ω db).state) {db : Db} {requests : List Request}
    (h : Run.Each (exec env) (EachWrite env p) db requests) (hdb : I db) :
    I (Run.exec (exec env) db requests) :=
  Run.invariant I (fun _ _ hdb hrequest => invariant hwrite hrequest hdb) hdb h

end Request

end Synaptica.Exec
