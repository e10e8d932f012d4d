import Synaptica.Core.UuidText
import Synaptica.Exec.ReadOnly
import Synaptica.Storage.GraphIsolation
import Synaptica.Storage.Renaming

/-!
# Two programs in one text

`Parser::parse` flattens `P; Q` into one list of statements, and the planner threads one plan through
it. Executing the joined text is therefore executing `P` and then `Q` only if the statements of `Q`
treat the plan of `P` right: `Q` drops a plan that only reads (`startsFresh`), or puts read operators
over it (`wraps`), or neither of the two writes. Otherwise writes of `P` are dropped or repeated, or
`Q` writes for the rows of `P`.
-/

namespace Synaptica.Gql

/-- The plan of the program has no write operator. -/
def GqlProgram.Reads (P : GqlProgram) : Prop :=
  ∃ plan, QueryPlanner.plan P = .ok plan ∧ plan.readOnly

end Synaptica.Gql

namespace Synaptica.Exec

open Gql Storage Process QueryPlanner

variable (env : Env) (graphId : GraphId)

theorem state_executeProgram {P : GqlProgram} {plan : LogicalPlan}
    (h : QueryPlanner.plan P = .ok plan) (ω : Stream' Draw) (db : Db) :
    ((executeProgram env graphId P).run ω db).state =
      ((executePlan env graphId plan).run ω db).state := by
  rw [executeProgram, h]
  exact congrArg Ended.state (run_mapError _ _ ω db)

/-- A program that reads leaves the store as it is. -/
theorem state_of_reads {P : GqlProgram} (h : P.Reads) (ω : Stream' Draw) (db : Db) :
    ((executeProgram env graphId P).run ω db).state = db := by
  obtain ⟨plan, hplan, hreads⟩ := h
  rw [state_executeProgram env graphId hplan, state_executePlan env graphId hreads]

/-! ## Joining programs -/

section

variable {P Q : GqlProgram} {p : LogicalPlan}

end

/-! ## The joined text -/

/-- An environment for concrete runs over a given encoding: no dates, no index names hashed, one
graph. -/
def sampleEnv (bin : Bincode) : Env where
  rt := { sampleRuntime with bin := bin }
  chrono := ⟨fun _ _ => .error "", fun _ _ => .error "", fun _ _ => .error ""⟩
  debug := ⟨fun _ => "", fun s => "\"" ++ s ++ "\"", fun _ => "", fun _ => "", fun _ => ""⟩
  parseUuid := Uuid.parseHyphenated
  graphIdFromName _ := sampleGraph

theorem parseUuid_sampleEnv (bin : Bincode) (u : Uuid) :
    (sampleEnv bin).parseUuid u.toString = .ok u := by
  have hparse : (sampleEnv bin).parseUuid = Uuid.parseHyphenated := rfl
  rw [hparse, Uuid.parseHyphenated_toString]

/-- The identifiers 1, 2, 3 and so on; hash sets in the order of their keys. -/
def sampleDraws : Stream' Draw := fun n => ⟨sampleId (UInt8.ofNat (n + 1)), id, fun _ => .refl _⟩

/-- The pattern `(v:label)`. -/
def nodePattern (var : Option String) (label : String) : PathPattern :=
  ⟨[.node ⟨var, [label], []⟩]⟩

/-- `INSERT (:Person)`. -/
def insertPerson : GqlProgram := ⟨[.insert [nodePattern none "Person"]]⟩

/-- `RETURN 1`. -/
def returnOne : GqlProgram := ⟨[.returnStmt ⟨false, [⟨.literal (.integer 1), none⟩], none, none⟩]⟩

end Synaptica.Exec
