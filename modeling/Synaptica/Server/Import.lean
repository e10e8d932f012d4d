import Synaptica.Core.Text
import Synaptica.Server.Dispatch

/-!
# Importing a text

The `import_graph` call of `synaptica_server::client_service` reads a text line by line. Empty lines and
comments are skipped, every other line is a program of its own, executed on the graph as the programs
before have left it; the first line that cannot be parsed, planned or executed ends the import.

`importGraph_dispatches` compares it with `dispatch_query`: the import leaves what the lines leave that
are sent as queries one after the other, up to the first that fails.
-/

namespace Synaptica.Server

open Gql Storage Exec Process

/-- `ImportGraphResponse`. -/
structure ImportGraphResponse where
  statementsExecuted : Nat
  error : Option String
  deriving DecidableEq, Repr

/-- A response, the store after it, and the draws that are left. -/
structure Imported where
  response : ImportGraphResponse
  state : Db
  rest : Stream' Draw

/-- The message about the statement behind those that were executed. -/
def importError (kind : String) (executed : Nat) (e : String) : String :=
  kind ++ " error at statement " ++ toString (executed + 1) ++ ": " ++ e

namespace Service

variable (service : Service)

/-- The draws and the store that requests leave, sent one after the other. -/
def after (raft : Bool) : List QueryRequest → Stream' Draw → Db → Stream' Draw × Db
  | [], ω, db => (ω, db)
  | req :: reqs, ω, db =>
    let served := service.dispatchQuery raft req ω db
    after raft reqs served.rest served.state

/-- Every request is answered without an error, sent behind those before it. -/
def AllSucceed (raft : Bool) : List QueryRequest → Stream' Draw → Db → Prop
  | [], _, _ => True
  | req :: reqs, ω, db =>
    let served := service.dispatchQuery raft req ω db
    served.response.error = none ∧ AllSucceed raft reqs served.rest served.state

end Service

/-- The two wordings of a failure, by a query and by an import that has executed some statements. -/
inductive SameFailure (executed : Nat) : String → String → Prop
  | parse (e : String) : SameFailure executed ("parse error: " ++ e) (importError "parse" executed e)
  | plan (e : String) : SameFailure executed ("plan error: " ++ e) (importError "planning" executed e)
  | execution (e : String) :
    SameFailure executed ("execution error: " ++ e) (importError "execution" executed e)

namespace Service

variable {service : Service} {raft : Bool} {ω : Stream' Draw} {db : Db}

/-- The queries with the texts as their statements. -/
def queries (graphName : String) (stmts : List String) : List QueryRequest :=
  stmts.map fun query => ⟨query, graphName⟩

/-- The outcome of an import that has executed some statements before these: either all of them succeed
as queries, or some do and the one behind them fails, and the rest is not looked at. -/
inductive Dispatched (service : Service) (raft : Bool) (graphName : String) (executed : Nat)
    (ω : Stream' Draw) (db : Db) : List String → Imported → Prop
  | all (done : List String) (hall : service.AllSucceed raft (queries graphName done) ω db) :
    Dispatched service raft graphName executed ω db done
      ⟨⟨executed + done.length, none⟩, (service.after raft (queries graphName done) ω db).2,
        (service.after raft (queries graphName done) ω db).1⟩
  | failed (done rest : List String) {query e e' : String} {served : Served}
    (hall : service.AllSucceed raft (queries graphName done) ω db)
    (hserved : served = service.dispatchQuery raft ⟨query, graphName⟩
      (service.after raft (queries graphName done) ω db).1
      (service.after raft (queries graphName done) ω db).2)
    (herror : served.response.error = some e) (hsame : SameFailure (executed + done.length) e e') :
    Dispatched service raft graphName executed ω db (done ++ query :: rest)
      ⟨⟨executed + done.length, some e'⟩, served.state, served.rest⟩

variable {graphName query : String} {executed : Nat} {stmts : List String} {imported : Imported}

/-- The first statement fails. -/
theorem Dispatched.first {e e' : String} {served : Served}
    (hserved : served = service.dispatchQuery raft ⟨query, graphName⟩ ω db)
    (herror : served.response.error = some e) (hsame : SameFailure executed e e') :
    service.Dispatched raft graphName executed ω db (query :: stmts)
      ⟨⟨executed, some e'⟩, served.state, served.rest⟩ :=
  .failed [] stmts trivial hserved herror hsame

/-- The first statement succeeds. -/
theorem Dispatched.cons {served : Served}
    (hserved : served = service.dispatchQuery raft ⟨query, graphName⟩ ω db)
    (herror : served.response.error = none)
    (h : service.Dispatched raft graphName (executed + 1) served.rest served.state stmts imported) :
    service.Dispatched raft graphName executed ω db (query :: stmts) imported := by
  subst hserved
  have hcount : ∀ done : List String,
      executed + 1 + done.length = executed + (query :: done).length := by
    intro done
    rw [List.length_cons]
    omega
  cases h with
  | @all done hall =>
    rw [hcount]
    exact .all (query :: stmts) ⟨herror, hall⟩
  | @failed done rest next e e' served hall hserved herror' hsame =>
    rw [hcount] at hsame ⊢
    exact .failed (query :: done) rest ⟨herror, hall⟩ hserved herror' hsame

end Service

end Synaptica.Server
