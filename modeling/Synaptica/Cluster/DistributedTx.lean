import Synaptica.Lib.Run
import Std.Data.String.ToNat

/-!
# Two-phase commit: the coordinator

`TwoPhaseCoordinator` keeps a table of transactions, a decision log and handles to its
participants, each behind a lock of its own. `prepare`, `commit` and `abort` take a lock for one
update and drop it again before the next, so calls in different threads interleave: a state check
with its update, an append to the log and a call of one participant are one step each. `Pc` is
where a call stands between two steps, `TwoPhaseCoordinator.advance` its next step, `Machine.step`
the interleaving of any number of calls.

* `Machine.events` — what has happened, newest first.
* `Move`, `advance_move` — the inversion of a step.
-/

namespace Synaptica.Cluster

structure PartitionId where
  value : String
  deriving DecidableEq, Repr

structure DistributedTxId where
  value : String
  deriving DecidableEq, Repr

/-- The identifier `format!("dtx-\x7b\x7d", n)`. -/
def DistributedTxId.ofCounter (n : UInt64) : DistributedTxId :=
  ⟨"dtx-" ++ n.toNat.repr⟩

theorem DistributedTxId.ofCounter_injective {m n : UInt64} (h : ofCounter m = ofCounter n) :
    m = n := by
  have hrepr : m.toNat.repr = n.toNat.repr := by
    simpa [ofCounter] using h
  exact UInt64.toNat_inj.mp (Nat.repr_injective hrepr)

inductive DistributedTxState where
  | initiated
  | preparing
  | prepared
  | committing
  | committed
  | aborting
  | aborted
  deriving DecidableEq, Repr

inductive DistributedTxError where
  | participantFailed (pid : PartitionId)
  | timeout
  | alreadyCommitted
  | alreadyAborted
  | coordinatorFailed
  deriving DecidableEq, Repr

inductive LogEntry where
  | prepare (txId : DistributedTxId) (participants : List PartitionId)
  | commit (txId : DistributedTxId)
  | abort (txId : DistributedTxId)
  deriving DecidableEq, Repr

structure TxRecord where
  state : DistributedTxState
  participants : List PartitionId
  deriving DecidableEq, Repr

/-- How a participant answers each of the three calls, should it receive one now. -/
structure ParticipantHandle where
  prepare : Except DistributedTxError Bool
  commit : Except DistributedTxError Unit
  abort : Except DistributedTxError Unit

structure TwoPhaseCoordinator where
  nextId : UInt64
  transactions : DistributedTxId → Option TxRecord
  /-- The entries of the decision log, in the order they were appended. -/
  log : List LogEntry
  /-- The partitions a handle is registered for. -/
  participants : List PartitionId

/-- What a finished call returned. -/
inductive Response where
  | id (txId : DistributedTxId)
  | votes (allYes : Bool)
  | unit
  | error (e : DistributedTxError)
  | panicked
  deriving DecidableEq, Repr

/-- The next step of a call. -/
inductive Pc where
  | begin
  | prepareCheck (txId : DistributedTxId) (participantIds : List PartitionId)
  | prepareLog (txId : DistributedTxId) (participantIds : List PartitionId)
  /-- In the loop over the participants, `rest` of which are still to be asked. -/
  | prepareAsk (txId : DistributedTxId) (participantIds rest : List PartitionId)
  | prepareFinish (txId : DistributedTxId) (allYes : Bool)
  | commitCheck (txId : DistributedTxId)
  | commitLog (txId : DistributedTxId) (participantIds : List PartitionId)
  | commitSend (txId : DistributedTxId) (rest : List PartitionId)
  | commitFinish (txId : DistributedTxId)
  | abortCheck (txId : DistributedTxId)
  | abortLog (txId : DistributedTxId) (participantIds : List PartitionId)
  | abortSend (txId : DistributedTxId) (rest : List PartitionId)
  | abortFinish (txId : DistributedTxId)
  | returned (r : Response)
  deriving DecidableEq, Repr

/-- What can be observed of a step. -/
inductive Event where
  /-- The `prepare` call of thread `call` passed its state check. -/
  | prepareAccepted (call : Nat) (txId : DistributedTxId) (participantIds : List PartitionId)
  /-- A participant answered the `prepare` call of thread `call`. -/
  | voted (call : Nat) (txId : DistributedTxId) (pid : PartitionId)
      (answer : Except DistributedTxError Bool)
  /-- A `commit` call passed its state check. -/
  | commitAccepted (txId : DistributedTxId)
  /-- An `abort` call passed its state check. -/
  | abortAccepted (txId : DistributedTxId)
  | logged (entry : LogEntry)
  | commitSent (txId : DistributedTxId) (pid : PartitionId)
  | abortSent (txId : DistributedTxId) (pid : PartitionId)

/-- The result of one step of a call. -/
structure Advance where
  coordinator : TwoPhaseCoordinator
  pc : Pc
  event : Option Event

namespace TwoPhaseCoordinator

def new (participants : List PartitionId) : TwoPhaseCoordinator :=
  { nextId := 1, transactions := fun _ => none, log := [], participants }

def state (c : TwoPhaseCoordinator) (txId : DistributedTxId) : Option DistributedTxState :=
  (c.transactions txId).map TxRecord.state

def setRecord (c : TwoPhaseCoordinator) (txId : DistributedTxId) (record : TxRecord) :
    TwoPhaseCoordinator :=
  { c with transactions := Function.update c.transactions txId (some record) }

/-- The counter steps on. -/
def draw (c : TwoPhaseCoordinator) : TwoPhaseCoordinator := { c with nextId := c.nextId + 1 }

def append (c : TwoPhaseCoordinator) (entry : LogEntry) : TwoPhaseCoordinator :=
  { c with log := c.log ++ [entry] }

/-- The call returns, nothing has changed. -/
def exit (c : TwoPhaseCoordinator) (r : Response) : Advance := ⟨c, .returned r, none⟩

/-- `begin_distributed_tx`. The lock on `next_id` is held to the end of the call, so that it is one
step. When the counter overflows the call panics before it enters the transaction. -/
def beginDistributedTx (c : TwoPhaseCoordinator) : Advance :=
  if c.nextId.toNat + 1 < 2 ^ 64 then
    let id := DistributedTxId.ofCounter c.nextId
    ⟨c.draw.setRecord id ⟨.initiated, []⟩, .returned (.id id), none⟩
  else c.exit .panicked

/-- The update at the end of a call: the record is there, or `unwrap` panics. -/
def finish (c : TwoPhaseCoordinator) (txId : DistributedTxId) (state : DistributedTxState)
    (r : Response) : Advance :=
  match c.transactions txId with
  | none => c.exit .panicked
  | some record => ⟨c.setRecord txId { record with state }, .returned r, none⟩

/-- The state check of `prepare`, in thread `call`. -/
def checkPrepare (c : TwoPhaseCoordinator) (call : Nat) (txId : DistributedTxId)
    (participantIds : List PartitionId) : Advance :=
  match c.transactions txId with
  | none => c.exit (.error .coordinatorFailed)
  | some record =>
    match record.state with
    | .initiated =>
      ⟨c.setRecord txId ⟨.preparing, participantIds⟩, .prepareLog txId participantIds,
        some (.prepareAccepted call txId participantIds)⟩
    | .committed => c.exit (.error .alreadyCommitted)
    | .aborted => c.exit (.error .alreadyAborted)
    | _ => c.exit (.error .coordinatorFailed)

/-- The loop of `prepare` over the participants. -/
def askPrepare (c : TwoPhaseCoordinator) (call : Nat) (handle : ParticipantHandle)
    (txId : DistributedTxId) (participantIds : List PartitionId) : List PartitionId → Advance
  | [] => ⟨c, .prepareFinish txId true, none⟩
  | pid :: rest =>
    if pid ∈ c.participants then
      let event := Event.voted call txId pid handle.prepare
      match handle.prepare with
      | .ok true => ⟨c, .prepareAsk txId participantIds rest, some event⟩
      | .ok false => ⟨c, .prepareFinish txId false, some event⟩
      | .error e => ⟨c, .returned (.error e), some event⟩
    else c.exit (.error (.participantFailed pid))

/-- The state check of `commit`. -/
def checkCommit (c : TwoPhaseCoordinator) (txId : DistributedTxId) : Advance :=
  match c.transactions txId with
  | none => c.exit (.error .coordinatorFailed)
  | some record =>
    match record.state with
    | .prepared =>
      ⟨c.setRecord txId { record with state := .committing }, .commitLog txId record.participants,
        some (.commitAccepted txId)⟩
    | .committed => c.exit (.error .alreadyCommitted)
    | .aborted => c.exit (.error .alreadyAborted)
    | _ => c.exit (.error .coordinatorFailed)

/-- The loop of `commit`: the first participant that fails ends the call. -/
def sendCommit (c : TwoPhaseCoordinator) (handle : ParticipantHandle) (txId : DistributedTxId) :
    List PartitionId → Advance
  | [] => ⟨c, .commitFinish txId, none⟩
  | pid :: rest =>
    if pid ∈ c.participants then
      match handle.commit with
      | .ok () => ⟨c, .commitSend txId rest, some (.commitSent txId pid)⟩
      | .error e => ⟨c, .returned (.error e), some (.commitSent txId pid)⟩
    else c.exit (.error (.participantFailed pid))

/-- The state check of `abort`. -/
def checkAbort (c : TwoPhaseCoordinator) (txId : DistributedTxId) : Advance :=
  match c.transactions txId with
  | none => c.exit (.error .coordinatorFailed)
  | some record =>
    match record.state with
    | .committed => c.exit (.error .alreadyCommitted)
    | .aborted => c.exit (.error .alreadyAborted)
    | _ =>
      ⟨c.setRecord txId { record with state := .aborting }, .abortLog txId record.participants,
        some (.abortAccepted txId)⟩

/-- The loop of `abort`: what a participant answers is ignored. -/
def sendAbort (c : TwoPhaseCoordinator) (txId : DistributedTxId) : List PartitionId → Advance
  | [] => ⟨c, .abortFinish txId, none⟩
  | pid :: rest =>
    if pid ∈ c.participants then ⟨c, .abortSend txId rest, some (.abortSent txId pid)⟩
    else ⟨c, .abortSend txId rest, none⟩

/-- The next step of a call in thread `call`; a participant contacted in it answers as `handle`
says. -/
def advance (c : TwoPhaseCoordinator) (call : Nat) (handle : ParticipantHandle) : Pc → Advance
  | .begin => c.beginDistributedTx
  | .prepareCheck txId participantIds => c.checkPrepare call txId participantIds
  | .prepareLog txId participantIds =>
    ⟨c.append (.prepare txId participantIds), .prepareAsk txId participantIds participantIds,
      some (.logged (.prepare txId participantIds))⟩
  | .prepareAsk txId participantIds rest => c.askPrepare call handle txId participantIds rest
  | .prepareFinish txId allYes =>
    c.finish txId (if allYes then .prepared else .preparing) (.votes allYes)
  | .commitCheck txId => c.checkCommit txId
  | .commitLog txId participantIds =>
    ⟨c.append (.commit txId), .commitSend txId participantIds, some (.logged (.commit txId))⟩
  | .commitSend txId rest => c.sendCommit handle txId rest
  | .commitFinish txId => c.finish txId .committed .unit
  | .abortCheck txId => c.checkAbort txId
  | .abortLog txId participantIds =>
    ⟨c.append (.abort txId), .abortSend txId participantIds, some (.logged (.abort txId))⟩
  | .abortSend txId rest => c.sendAbort txId rest
  | .abortFinish txId => c.finish txId .aborted .unit
  | .returned r => c.exit r

end TwoPhaseCoordinator

/-! ## Interleavings -/

structure Machine where
  coordinator : TwoPhaseCoordinator
  /-- The calls made so far, in the order they were started. -/
  threads : List Pc
  /-- What has happened, newest first. -/
  events : List Event

inductive Action where
  | beginDistributedTx
  | prepare (txId : DistributedTxId) (participantIds : List PartitionId)
  | commit (txId : DistributedTxId)
  | abort (txId : DistributedTxId)
  /-- The next step of call `i`; a participant contacted in it answers as `handle` says. -/
  | step (i : Nat) (handle : ParticipantHandle)

namespace Machine

def init (participants : List PartitionId) : Machine :=
  { coordinator := .new participants, threads := [], events := [] }

def start (m : Machine) (pc : Pc) : Machine := { m with threads := m.threads ++ [pc] }

def resume (m : Machine) (i : Nat) (a : Advance) : Machine :=
  { coordinator := a.coordinator
    threads := m.threads.set i a.pc
    events := a.event.toList ++ m.events }

def step (m : Machine) : Action → Machine
  | .beginDistributedTx => m.start .begin
  | .prepare txId participantIds => m.start (.prepareCheck txId participantIds)
  | .commit txId => m.start (.commitCheck txId)
  | .abort txId => m.start (.abortCheck txId)
  | .step i handle =>
    match m.threads[i]? with
    | none => m
    | some pc => m.resume i (m.coordinator.advance i handle pc)

/-- The state after a run of any number of calls. -/
def run (participants : List PartitionId) (as : List Action) : Machine :=
  Run.exec step (init participants) as

end Machine

/-! ## Inversion -/

/-- `Move c call pc a`: what a step of a call at `pc` can do. -/
inductive Move (c : TwoPhaseCoordinator) (call : Nat) : Pc → Advance → Prop
  /-- The call returns. -/
  | exit (pc : Pc) (r : Response) : Move c call pc (c.exit r)
  | begin (h : c.nextId.toNat + 1 < 2 ^ 64) :
      Move c call .begin
        ⟨c.draw.setRecord (.ofCounter c.nextId) ⟨.initiated, []⟩, .returned (.id (.ofCounter c.nextId)), none⟩
  | acceptPrepare {tx pids record} (h : c.transactions tx = some record)
      (hstate : record.state = .initiated) :
      Move c call (.prepareCheck tx pids)
        ⟨c.setRecord tx ⟨.preparing, pids⟩, .prepareLog tx pids,
          some (.prepareAccepted call tx pids)⟩
  | logPrepare {tx pids} :
      Move c call (.prepareLog tx pids)
        ⟨c.append (.prepare tx pids), .prepareAsk tx pids pids, some (.logged (.prepare tx pids))⟩
  | voteYes {tx pids pid rest} :
      Move c call (.prepareAsk tx pids (pid :: rest))
        ⟨c, .prepareAsk tx pids rest, some (.voted call tx pid (.ok true))⟩
  | voteNo {tx pids pid rest} :
      Move c call (.prepareAsk tx pids (pid :: rest))
        ⟨c, .prepareFinish tx false, some (.voted call tx pid (.ok false))⟩
  | voteError {tx pids pid rest e} :
      Move c call (.prepareAsk tx pids (pid :: rest))
        ⟨c, .returned (.error e), some (.voted call tx pid (.error e))⟩
  | allYes {tx pids} : Move c call (.prepareAsk tx pids []) ⟨c, .prepareFinish tx true, none⟩
  | finishPrepare {tx yes record} (h : c.transactions tx = some record) :
      Move c call (.prepareFinish tx yes)
        ⟨c.setRecord tx { record with state := if yes then .prepared else .preparing },
          .returned (.votes yes), none⟩
  | acceptCommit {tx record} (h : c.transactions tx = some record)
      (hstate : record.state = .prepared) :
      Move c call (.commitCheck tx)
        ⟨c.setRecord tx { record with state := .committing }, .commitLog tx record.participants,
          some (.commitAccepted tx)⟩
  | logCommit {tx pids} :
      Move c call (.commitLog tx pids)
        ⟨c.append (.commit tx), .commitSend tx pids, some (.logged (.commit tx))⟩
  | sendCommit {tx pid rest} :
      Move c call (.commitSend tx (pid :: rest))
        ⟨c, .commitSend tx rest, some (.commitSent tx pid)⟩
  | sendCommitError {tx pid rest e} :
      Move c call (.commitSend tx (pid :: rest))
        ⟨c, .returned (.error e), some (.commitSent tx pid)⟩
  | sentCommits {tx} : Move c call (.commitSend tx []) ⟨c, .commitFinish tx, none⟩
  | finishCommit {tx record} (h : c.transactions tx = some record) :
      Move c call (.commitFinish tx)
        ⟨c.setRecord tx { record with state := .committed }, .returned .unit, none⟩
  | acceptAbort {tx record} (h : c.transactions tx = some record)
      (hcommitted : record.state ≠ .committed) (haborted : record.state ≠ .aborted) :
      Move c call (.abortCheck tx)
        ⟨c.setRecord tx { record with state := .aborting }, .abortLog tx record.participants,
          some (.abortAccepted tx)⟩
  | logAbort {tx pids} :
      Move c call (.abortLog tx pids)
        ⟨c.append (.abort tx), .abortSend tx pids, some (.logged (.abort tx))⟩
  | sendAbort {tx pid rest} :
      Move c call (.abortSend tx (pid :: rest)) ⟨c, .abortSend tx rest, some (.abortSent tx pid)⟩
  | skipAbort {tx pid rest} :
      Move c call (.abortSend tx (pid :: rest)) ⟨c, .abortSend tx rest, none⟩
  | sentAborts {tx} : Move c call (.abortSend tx []) ⟨c, .abortFinish tx, none⟩
  | finishAbort {tx record} (h : c.transactions tx = some record) :
      Move c call (.abortFinish tx)
        ⟨c.setRecord tx { record with state := .aborted }, .returned .unit, none⟩

namespace TwoPhaseCoordinator

variable (c : TwoPhaseCoordinator) (call : Nat) (handle : ParticipantHandle)

theorem checkPrepare_move (tx : DistributedTxId) (pids : List PartitionId) :
    Move c call (.prepareCheck tx pids) (c.checkPrepare call tx pids) := by
  unfold checkPrepare
  split
  next => exact .exit _ _
  next record h =>
    split
    next hstate => exact .acceptPrepare h hstate
    all_goals exact .exit _ _

theorem askPrepare_move (tx : DistributedTxId) (pids rest : List PartitionId) :
    Move c call (.prepareAsk tx pids rest) (c.askPrepare call handle tx pids rest) := by
  unfold askPrepare
  split
  next => exact .allYes
  next pid rest =>
    by_cases hpid : pid ∈ c.participants
    · rw [if_pos hpid]
      cases hanswer : handle.prepare with
      | error e => exact .voteError
      | ok yes =>
        cases yes with
        | false => exact .voteNo
        | true => exact .voteYes
    · rw [if_neg hpid]
      exact .exit _ _

theorem checkCommit_move (tx : DistributedTxId) :
    Move c call (.commitCheck tx) (c.checkCommit tx) := by
  unfold checkCommit
  split
  next => exact .exit _ _
  next record h =>
    split
    next hstate => exact .acceptCommit h hstate
    all_goals exact .exit _ _

theorem sendCommit_move (tx : DistributedTxId) (rest : List PartitionId) :
    Move c call (.commitSend tx rest) (c.sendCommit handle tx rest) := by
  unfold sendCommit
  split
  next => exact .sentCommits
  next pid rest =>
    by_cases hpid : pid ∈ c.participants
    · rw [if_pos hpid]
      cases handle.commit with
      | error e => exact .sendCommitError
      | ok u => exact .sendCommit
    · rw [if_neg hpid]
      exact .exit _ _

theorem checkAbort_move (tx : DistributedTxId) :
    Move c call (.abortCheck tx) (c.checkAbort tx) := by
  unfold checkAbort
  split
  next => exact .exit _ _
  next record h =>
    split
    next => exact .exit _ _
    next => exact .exit _ _
    next hcommitted haborted => exact .acceptAbort h hcommitted haborted

theorem sendAbort_move (tx : DistributedTxId) (rest : List PartitionId) :
    Move c call (.abortSend tx rest) (c.sendAbort tx rest) := by
  unfold sendAbort
  split
  next => exact .sentAborts
  next pid rest =>
    by_cases hpid : pid ∈ c.participants
    · rw [if_pos hpid]
      exact .sendAbort
    · rw [if_neg hpid]
      exact .skipAbort

/-- **Inversion of a step.** -/
theorem advance_move (pc : Pc) : Move c call pc (c.advance call handle pc) := by
  cases pc with
  | begin =>
    show Move c call .begin c.beginDistributedTx
    unfold beginDistributedTx
    split
    next h => exact .begin h
    next => exact .exit _ _
  | prepareCheck tx pids => exact c.checkPrepare_move call tx pids
  | prepareLog tx pids => exact .logPrepare
  | prepareAsk tx pids rest => exact c.askPrepare_move call handle tx pids rest
  | prepareFinish tx yes =>
    show Move c call _ (c.finish tx (if yes then .prepared else .preparing) (.votes yes))
    unfold finish
    split
    next => exact .exit _ _
    next record h => exact .finishPrepare h
  | commitCheck tx => exact c.checkCommit_move call tx
  | commitLog tx pids => exact .logCommit
  | commitSend tx rest => exact c.sendCommit_move call handle tx rest
  | commitFinish tx =>
    show Move c call _ (c.finish tx .committed .unit)
    unfold finish
    split
    next => exact .exit _ _
    next record h => exact .finishCommit h
  | abortCheck tx => exact c.checkAbort_move call tx
  | abortLog tx pids => exact .logAbort
  | abortSend tx rest => exact c.sendAbort_move call tx rest
  | abortFinish tx =>
    show Move c call _ (c.finish tx .aborted .unit)
    unfold finish
    split
    next => exact .exit _ _
    next record h => exact .finishAbort h
  | returned r => exact .exit _ _

end TwoPhaseCoordinator

/-- Where a call starts. -/
def Pc.IsEntry : Pc → Prop
  | begin | prepareCheck _ _ | commitCheck _ | abortCheck _ => True
  | _ => False

/-- What starting a call and every move preserve, every step preserves. -/
theorem Machine.step_induction {P : Machine → Prop} {m : Machine} (a : Action) (hm : P m)
    (hstart : ∀ pc : Pc, pc.IsEntry → P (m.start pc))
    (hmove : ∀ i handle pc adv, a = .step i handle → m.threads[i]? = some pc →
      Move m.coordinator i pc adv → P (m.resume i adv)) : P (m.step a) := by
  cases a with
  | beginDistributedTx => exact hstart .begin trivial
  | prepare tx pids => exact hstart (.prepareCheck tx pids) trivial
  | commit tx => exact hstart (.commitCheck tx) trivial
  | abort tx => exact hstart (.abortCheck tx) trivial
  | step i handle =>
    cases hpc : m.threads[i]? with
    | none => simpa [step, hpc] using hm
    | some pc =>
      have hadvance := m.coordinator.advance_move i handle pc
      simpa [step, hpc] using hmove i handle pc _ rfl hpc hadvance

end Synaptica.Cluster
