import Synaptica.Exec.Sequencing
import Synaptica.Lib.Schedule
import Synaptica.Storage.Bincode

/-!
# Two programs at once

Client requests execute their programs on one engine, one storage call at a time and without a lock,
so the calls of two programs can come in any order. `SET` reads a whole node, changes one property of
it and writes the whole node back: what another program wrote to the node in between is lost. A
schedule in which one of the programs can go first, because its calls commute with those that the
other one made before them, ends as if the programs had run one after the other.
-/

namespace Synaptica.Exec

open Gql Storage Process

variable (env : Env) (graphId : GraphId)

end Synaptica.Exec
