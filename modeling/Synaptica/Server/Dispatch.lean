import Synaptica.Exec.Sequencing

/-!
# Query dispatch

`synaptica_server::client_service` and the applier it writes through. A server without Raft executes
every query itself. In a cluster a query that `is_write_query` recognizes goes through the log as a
text and a graph name, and the state machine resolves both again; every other query is executed
locally, so it must not write.
-/

namespace Synaptica.Gql

/-! ## Which queries write -/

/-- The statements that `is_write_query` looks for. -/
def isWriteStatement : GqlStatement → Bool
  | .insert _ | .set _ | .delete .. | .remove | .createGraph .. | .dropGraph .. | .createGraphType
  | .createIndex _ | .dropIndex _ => true
  | _ => false

/-- `is_write_query`. -/
def isWriteQuery (program : GqlProgram) : Bool := program.statements.any isWriteStatement

namespace QueryPlanner

/-- A statement that is not a write adds no write operator to the plan so far. -/
theorem readOnly_of_not_isWriteStatement {stmt : GqlStatement} {input : Option LogicalPlan}
    {plan : LogicalPlan} (h : isWriteStatement stmt = false) (hinput : inputReads input)
    (hplan : planStatement stmt input = .ok plan) : plan.readOnly := by
  have hbase : (input.getD .empty).readOnly := by
    cases input with
    | none => rfl
    | some p => exact hinput
  cases stmt with
  | matchStmt m => rw [readOnly_planMatch hplan, hinput, Bool.or_true]
  | returnStmt r =>
    cases hplan
    rw [(over_planReturn r input).readOnly_eq]
    exact hbase
  | withStmt w =>
    cases hplan
    rw [(over_planWith w input).readOnly_eq]
    exact hbase
  | call | listGraphs =>
    cases hplan
    rfl
  | compositeQuery => cases hplan
  | insert | set | delete | remove | createGraph | dropGraph | createGraphType | createIndex
  | dropIndex => cases h

/-- The plan of statements that are not writes has no write operator. -/
theorem inputReads_of_not_write {stmts : List GqlStatement} {input last : Option LogicalPlan}
    (h : ∀ stmt ∈ stmts, isWriteStatement stmt = false) (hinput : inputReads input)
    (hplan : planFrom input stmts = .ok last) : inputReads last := by
  induction stmts generalizing input with
  | nil =>
    cases hplan
    exact hinput
  | cons stmt stmts ih =>
    obtain ⟨first, hfirst, hrest⟩ := planFrom_cons_eq_ok.mp hplan
    apply ih (fun s hs => h s (List.mem_cons_of_mem _ hs)) _ hrest
    exact readOnly_of_not_isWriteStatement (h stmt List.mem_cons_self) hinput hfirst

end QueryPlanner

end Synaptica.Gql

namespace Synaptica.Server

open Gql Storage Exec Process

/-- **Reads do not write.** A program that is not classified as a write leaves every store as it is,
whether it succeeds or fails. -/
theorem state_of_not_isWriteQuery (env : Env) (graphId : GraphId) {program : GqlProgram}
    (h : isWriteQuery program = false) (ω : Stream' Draw) (db : Db) :
    ((executeProgram env graphId program).run ω db).state = db := by
  cases hplan : QueryPlanner.plan program with
  | error e =>
    rw [executeProgram, hplan]
    rfl
  | ok plan =>
    refine state_of_reads env graphId ⟨plan, hplan, ?_⟩ ω db
    obtain ⟨last, hlast, rfl⟩ := QueryPlanner.plan_eq_ok.mp hplan
    have hreads : QueryPlanner.inputReads last :=
      QueryPlanner.inputReads_of_not_write (by simpa [isWriteQuery] using h) rfl hlast
    cases last with
    | none => rfl
    | some p => exact hreads

/-- `MATCH (n:Person)` and `RETURN 1` in one program. -/
def matchReturn : GqlProgram :=
  ⟨.matchStmt ⟨none, [nodePattern (some "n") "Person"], none⟩ :: returnOne.statements⟩

/-- That program is a read, on the store with one person too. -/
theorem state_matchReturn :
    isWriteQuery matchReturn = false ∧
      ((executeProgram (sampleEnv sampleBincode) sampleGraph matchReturn).run sampleDraws
        (storeRun sampleBincode [.putNode person])).state = storeRun sampleBincode [.putNode person] :=
  ⟨rfl, state_of_not_isWriteQuery _ _ rfl _ _⟩

/-! ## Requests and responses -/

structure QueryRequest where
  query : String
  /-- Empty for the default graph. -/
  graphName : String

/-- `QueryStats`, without the time. -/
structure QueryStats where
  counts : ExecStats
  rowsReturned : Int64
  deriving DecidableEq, Repr

structure QueryResponse where
  columns : List String
  rows : List (List Value)
  stats : Option QueryStats
  error : Option String
  deriving DecidableEq, Repr

def queryError (message : String) : QueryResponse := ⟨[], [], none, some message⟩

/-- A response, the store after it, and the draws that are left. -/
structure Served where
  response : QueryResponse
  state : Db
  rest : Stream' Draw

/-- What a server is configured with. The parser is any function from texts to programs. -/
structure Service where
  env : Env
  parse : String → Except String GqlProgram
  defaultGraphId : GraphId

namespace Service

variable (service : Service)

def resolveGraphId (graphName : String) : GraphId :=
  if graphName.isEmpty then service.defaultGraphId else service.env.graphIdFromName graphName

/-- The name of a graph as it is displayed, and as it is written into the log. -/
def resolveGraphName (graphName : String) : String :=
  if graphName.isEmpty then service.defaultGraphId.uuid.toString else graphName

/-! ## Execution -/

/-- The counts of a program, and the rows it returned. -/
def queryStats (reports : List ExecStats) (rs : ResultSet) : QueryStats :=
  ⟨.total reports, Int64.ofNat rs.records.length⟩

/-- The text of a failed program, the same on both paths. -/
def failureMessage : ProgramError → String
  | .plan e => "plan error: " ++ e
  | .execution e => "execution error: " ++ e

/-- Execute a query locally (reads, or standalone mode writes). -/
def executeLocal (program : GqlProgram) (graphId : GraphId) (ω : Stream' Draw) (db : Db) : Served :=
  let ended := (executeProgram service.env graphId program).run ω db
  let response := match ended.result with
    | .ok rs =>
      ⟨rs.columns, rs.records.map (·.values), some (queryStats ended.reports rs), none⟩
    | .error e => queryError (failureMessage e)
  ⟨response, ended.state, ended.rest⟩

/-- `StateMachineApplier::apply_write_query`, and the response that `raft_result_response` makes of
what it answers: the counts, and no rows. -/
def applyWriteQuery (query graphName : String) (ω : Stream' Draw) (db : Db) : Served :=
  let graphId := service.env.graphIdFromName graphName
  match service.parse query with
  | .error e => ⟨queryError ("parse error: " ++ e), db, ω⟩
  | .ok program =>
    let ended := (executeProgram service.env graphId program).run ω db
    let response := match ended.result with
      | .ok rs => ⟨[], [], some (queryStats ended.reports rs), none⟩
      | .error e => queryError (failureMessage e)
    ⟨response, ended.state, ended.rest⟩

/-- `dispatch_query`, on a server with a Raft of one node or without Raft. Every write that goes
through the log is committed and applied at once. -/
def dispatchQuery (raft : Bool) (req : QueryRequest) (ω : Stream' Draw) (db : Db) : Served :=
  match service.parse req.query with
  | .error e => ⟨queryError ("parse error: " ++ e), db, ω⟩
  | .ok program =>
    if raft && isWriteQuery program then
      service.applyWriteQuery req.query (service.resolveGraphName req.graphName) ω db
    else service.executeLocal program (service.resolveGraphId req.graphName) ω db

variable {service}

end Service

/-! ## A write to the default graph -/

end Synaptica.Server
