import Synaptica.Storage.MvccFrame
import Synaptica.Tx.Steps

/-!
# Commits, step by step

Threads do not see a commit as one operation. `commit` takes the lock on the table of commits,
checks for conflicts, draws its timestamp, writes its batch, records itself, releases the lock, and
on every hundredth timestamp reads the oracle's counter and persists it. `begin`, reads and the
buffering of writes take no lock and may run in between. `Machine` interleaves these steps freely,
in any number of transactions; a step that is not enabled leaves the machine as it is.

* `advance_commit` — the steps of one commit run to their end without interruption are the atomic
  `commit` of `TransactionManager`.
* `Move`, `step_move` — the inversion of a step, as `Session.Change` is for atomic operations.
-/

namespace Synaptica.Tx

open Storage TransactionManager

/-! ## The machine -/

/-- Where a transaction is in its commit. -/
inductive Phase where
  /-- Not committing. -/
  | idle
  /-- Holds the lock. -/
  | locked
  /-- Passed the conflict check. -/
  | checked
  /-- Has its commit timestamp. -/
  | drawn (ts : UInt64)
  /-- Has written its batch. -/
  | written (ts : UInt64)
  /-- Is entered in the table of commits. -/
  | recorded (ts : UInt64)
  /-- Has released the lock. -/
  | released (ts : UInt64)
  /-- Has read the counter it will persist. -/
  | loaded (counter : UInt64)
  deriving DecidableEq, Repr

/-- The timestamp a commit is to write or has written at. -/
def Phase.commitTs : Phase → Option UInt64
  | drawn ts | written ts | recorded ts | released ts => some ts
  | _ => none

/-- The timestamp a commit has drawn but not written at yet. -/
def Phase.pending : Phase → Option UInt64
  | drawn ts => some ts
  | _ => none

/-- About to persist the counter. -/
def Phase.persisting : Phase → Bool
  | loaded _ => true
  | _ => false

structure Thread where
  tx : Transaction
  phase : Phase
  deriving DecidableEq, Repr

structure Machine where
  manager : TransactionManager
  /-- The transaction holding the lock on `committed_writes`. -/
  lock : Option Nat
  threads : List Thread
  /-- The timestamps of all versions written so far. -/
  stored : List UInt64

/-- One step of some thread. Reads change nothing and are not steps. -/
inductive Action where
  | begin
  | put (i : Nat) (cfName : String) (key value : Bytes)
  | delete (i : Nat) (cfName : String) (key : Bytes)
  | rollback (i : Nat)
  /-- The next step of the commit of transaction `i`. -/
  | advance (i : Nat)
  deriving DecidableEq, Repr

/-- The transaction whose commit a step advances. -/
def Action.advanced : Action → Option Nat
  | advance i => some i
  | _ => none

namespace Machine

/-- A manager over a given store, its oracle rebuilt with `load_timestamp_oracle`. -/
def restart (db : Db) : Machine :=
  { manager := TransactionManager.new db (TimestampOracle.loadFromDb db)
    lock := none
    threads := []
    stored := [] }

/-- An empty store. -/
def init : Machine := restart Db.empty

/-- On an empty store the rebuilt oracle is a fresh one. -/
example : init.manager.oracle = TimestampOracle.new := by decide

def setThread (m : Machine) (i : Nat) (th : Thread) : Machine :=
  { m with threads := m.threads.set i th }

/-- An operation on the transaction itself; while it commits it is borrowed. -/
def onIdle (m : Machine) (i : Nat) (f : Transaction → TxResult Transaction) : Machine :=
  match m.threads[i]? with
  | some ⟨tx, .idle⟩ =>
    match f tx with
    | .ok tx => m.setThread i ⟨tx, .idle⟩
    | .error _ => m
  | _ => m

/-- The end of a successful commit. -/
def finish (m : Machine) (i : Nat) (tx : Transaction) : Machine :=
  m.setThread i ⟨{ tx with state := .committed }, .idle⟩

def advance (m : Machine) (i : Nat) : Thread → Machine
  | ⟨tx, .idle⟩ =>
    if tx.state ≠ .active then m
    -- the lock is held: wait
    else if m.lock.isSome then m
    else { m with lock := some i }.setThread i ⟨tx, .locked⟩
  | ⟨tx, .locked⟩ =>
    if m.manager.conflicts tx then { m with lock := none }.setThread i ⟨tx, .idle⟩
    else m.setThread i ⟨tx, .checked⟩
  | ⟨tx, .checked⟩ =>
    let (ts, oracle) := m.manager.oracle.next
    { m with manager := { m.manager with oracle } }.setThread i ⟨tx, .drawn ts⟩
  | ⟨tx, .drawn ts⟩ =>
    match MvccStore.batchWriteAt m.manager.db tx.writes ts with
    | .error _ => { m with lock := none }.setThread i ⟨tx, .idle⟩
    | .ok db =>
      { m with
          manager := { m.manager with db }
          stored := if tx.writeSet = [] then m.stored else ts :: m.stored }.setThread i
        ⟨tx, .written ts⟩
  | ⟨tx, .written ts⟩ =>
    { m with manager := m.manager.recordCommit tx ts }.setThread i ⟨tx, .recorded ts⟩
  | ⟨tx, .recorded ts⟩ => { m with lock := none }.setThread i ⟨tx, .released ts⟩
  | ⟨tx, .released ts⟩ =>
    if ts % 100 = 0 then m.setThread i ⟨tx, .loaded m.manager.oracle.current⟩ else m.finish i tx
  | ⟨tx, .loaded counter⟩ =>
    { m with
        manager := { m.manager with
          db := MvccStore.persistTimestamp m.manager.db ⟨counter⟩ } }.finish i tx

def step (m : Machine) : Action → Machine
  | .begin =>
    let (tx, manager) := m.manager.begin
    { m with manager, threads := m.threads ++ [⟨tx, .idle⟩] }
  | .put i cfName key value => m.onIdle i fun tx => tx.put cfName key value
  | .delete i cfName key => m.onIdle i fun tx => tx.delete cfName key
  | .rollback i => m.onIdle i TransactionManager.rollback
  | .advance i =>
    match m.threads[i]? with
    | some th => m.advance i th
    | none => m

abbrev run (m : Machine) (actions : List Action) : Machine := Run.exec step m actions

/-- The oracle can hand out a timestamp without wrapping around. -/
def TimestampLeft (m : Machine) : Prop := m.manager.oracle.counter ≠ u64Max

instance (m : Machine) : Decidable m.TimestampLeft := inferInstanceAs (Decidable (_ ≠ _))

/-! ## One commit without interruption -/

@[simp] theorem setThread_manager (m : Machine) (i : Nat) (th : Thread) :
    (m.setThread i th).manager = m.manager := rfl

@[simp] theorem setThread_lock (m : Machine) (i : Nat) (th : Thread) :
    (m.setThread i th).lock = m.lock := rfl

@[simp] theorem setThread_stored (m : Machine) (i : Nat) (th : Thread) :
    (m.setThread i th).stored = m.stored := rfl

@[simp] theorem setThread_threads (m : Machine) (i : Nat) (th : Thread) :
    (m.setThread i th).threads = m.threads.set i th := rfl

/-- Midway through the commit of `i`, everything else being as in `base`. -/
structure Midway (base : List Thread) (i : Nat) (th : Thread) (manager : TransactionManager)
    (lock : Option Nat) (m : Machine) : Prop where
  threads : m.threads = base.set i th
  manager_eq : m.manager = manager
  lock_eq : m.lock = lock

section Midway

variable {base : List Thread} {i : Nat} {tx : Transaction} {manager : TransactionManager}
  {lock : Option Nat} {m : Machine}

theorem Midway.step_eq {th : Thread} (h : Midway base i th manager lock m) (hi : i < base.length) :
    m.step (.advance i) = m.advance i th := by
  have hth : m.threads[i]? = some th := by rw [h.threads, List.getElem?_set_self hi]
  simp [step, hth]

theorem Midway.take_lock (h : Midway base i ⟨tx, .idle⟩ manager none m) (hi : i < base.length)
    (hact : tx.state = .active) :
    Midway base i ⟨tx, .locked⟩ manager (some i) (m.step (.advance i)) := by
  rw [h.step_eq hi]
  constructor <;> simp [advance, hact, h.threads, h.manager_eq, h.lock_eq]

theorem Midway.conflict (h : Midway base i ⟨tx, .locked⟩ manager lock m) (hi : i < base.length)
    (hconf : manager.conflicts tx = true) :
    Midway base i ⟨tx, .idle⟩ manager none (m.step (.advance i)) := by
  rw [h.step_eq hi]
  constructor <;> simp [advance, hconf, h.threads, h.manager_eq]

theorem Midway.check (h : Midway base i ⟨tx, .locked⟩ manager lock m) (hi : i < base.length)
    (hconf : manager.conflicts tx = false) :
    Midway base i ⟨tx, .checked⟩ manager lock (m.step (.advance i)) := by
  rw [h.step_eq hi]
  constructor <;> simp [advance, hconf, h.threads, h.manager_eq, h.lock_eq]

theorem Midway.draw (h : Midway base i ⟨tx, .checked⟩ manager lock m) (hi : i < base.length) :
    Midway base i ⟨tx, .drawn manager.oracle.counter⟩ { manager with oracle := manager.oracle.next.2 }
      lock (m.step (.advance i)) := by
  rw [h.step_eq hi]
  constructor <;> simp [advance, h.threads, h.manager_eq, h.lock_eq, TimestampOracle.next]

theorem Midway.fail {ts : UInt64} {e : MvccError} (h : Midway base i ⟨tx, .drawn ts⟩ manager lock m)
    (hi : i < base.length) (hb : MvccStore.batchWriteAt manager.db tx.writes ts = .error e) :
    Midway base i ⟨tx, .idle⟩ manager none (m.step (.advance i)) := by
  rw [h.step_eq hi]
  constructor <;> simp [advance, hb, h.threads, h.manager_eq]

theorem Midway.write {ts : UInt64} {db : Db} (h : Midway base i ⟨tx, .drawn ts⟩ manager lock m)
    (hi : i < base.length) (hb : MvccStore.batchWriteAt manager.db tx.writes ts = .ok db) :
    Midway base i ⟨tx, .written ts⟩ { manager with db } lock (m.step (.advance i)) := by
  rw [h.step_eq hi]
  constructor <;> simp [advance, hb, h.threads, h.manager_eq, h.lock_eq]

theorem Midway.record {ts : UInt64} (h : Midway base i ⟨tx, .written ts⟩ manager lock m)
    (hi : i < base.length) :
    Midway base i ⟨tx, .recorded ts⟩ (manager.recordCommit tx ts) lock (m.step (.advance i)) := by
  rw [h.step_eq hi]
  constructor <;> simp [advance, h.threads, h.manager_eq, h.lock_eq]

theorem Midway.release {ts : UInt64} (h : Midway base i ⟨tx, .recorded ts⟩ manager lock m)
    (hi : i < base.length) :
    Midway base i ⟨tx, .released ts⟩ manager none (m.step (.advance i)) := by
  rw [h.step_eq hi]
  constructor <;> simp [advance, h.threads, h.manager_eq]

/-- The rest of a commit: persist the counter if it is due, and finish. -/
theorem Midway.finish {ts : UInt64} (h : Midway base i ⟨tx, .released ts⟩ manager lock m)
    (hi : i < base.length) :
    ∃ n, Midway base i ⟨{ tx with state := .committed }, .idle⟩ (manager.persistPeriodically ts)
      lock (m.run (List.replicate n (.advance i))) := by
  by_cases hp : ts % 100 = 0
  · have hload : Midway base i ⟨tx, .loaded manager.oracle.current⟩ manager lock
        (m.step (.advance i)) := by
      rw [h.step_eq hi]
      constructor <;> simp [advance, hp, h.threads, h.manager_eq, h.lock_eq]
    refine ⟨2, ?_⟩
    rw [show m.run (List.replicate 2 (.advance i)) = (m.step (.advance i)).step (.advance i) from rfl,
      hload.step_eq hi]
    constructor <;>
      simp [advance, Machine.finish, persistPeriodically, TimestampOracle.current, hp,
        hload.threads, hload.manager_eq, hload.lock_eq]
  · refine ⟨1, ?_⟩
    rw [show m.run (List.replicate 1 (.advance i)) = m.step (.advance i) from rfl, h.step_eq hi]
    constructor <;>
      simp [advance, Machine.finish, persistPeriodically, hp, h.threads, h.manager_eq, h.lock_eq]

end Midway

/-- **The steps of a commit, run to the end, are the atomic commit.** -/
theorem advance_commit {m : Machine} {i : Nat} {tx : Transaction} (hlock : m.lock = none)
    (hth : m.threads[i]? = some ⟨tx, .idle⟩) :
    ∃ n, Midway m.threads i ⟨(m.manager.commit tx).2.1, .idle⟩ (m.manager.commit tx).2.2 none
      (m.run (List.replicate n (.advance i))) := by
  have hi := (List.getElem?_eq_some_iff.mp hth).1
  have hidle : Midway m.threads i ⟨tx, .idle⟩ m.manager none m :=
    ⟨(Session.set_self_of_getElem? hth).symm, rfl, hlock⟩
  by_cases hact : tx.state = .active
  · have hlocked := hidle.take_lock hi hact
    cases hconf : m.manager.conflicts tx with
    | true => exact ⟨2, by simpa [commit, hact, hconf] using hlocked.conflict hi hconf⟩
    | false =>
      have hdrawn := (hlocked.check hi hconf).draw hi
      cases hb : MvccStore.batchWriteAt m.manager.db tx.writes m.manager.oracle.counter with
      | error e =>
        exact ⟨4, by
          simpa [commit, hact, hconf, hb, TimestampOracle.next] using hdrawn.fail hi hb⟩
      | ok db =>
        obtain ⟨n, hn⟩ := (((hdrawn.write hi hb).record hi).release hi).finish hi
        refine ⟨6 + n, ?_⟩
        rw [List.replicate_add, run, Run.exec_append]
        simpa [commit, hact, hconf, hb, TimestampOracle.next] using hn
  · exact ⟨0, by simpa [commit, hact] using hidle⟩

/-! ## Inversion of a step -/

/-- The ways the machine can move. -/
inductive Move (m : Machine) : Action → Machine → Prop where
  /-- A step that was not enabled, or an operation that was refused. -/
  | stay (a : Action) : Move m a m
  | begin :
      Move m .begin
        { m with
            manager := { m.manager with oracle := m.manager.oracle.next.2 }
            threads := m.threads ++ [⟨Transaction.new m.manager.oracle.counter
              (m.manager.oracle.counter - 1), .idle⟩] }
  /-- A thread moves on without touching the store or the oracle. -/
  | silent {a : Action} {i : Nat} {th th' : Thread} {m' : Machine}
      (hth : m.threads[i]? = some th) (hdb : m'.manager.db = m.manager.db)
      (horacle : m'.manager.oracle = m.manager.oracle) (hstored : m'.stored = m.stored)
      (hthreads : m'.threads = m.threads.set i th')
      (hsnap : th'.tx.snapshotTs = th.tx.snapshotTs) (hdrawn : ∀ ts, th'.phase ≠ .drawn ts)
      (hts : ∀ ts ∈ th'.phase.commitTs, th.phase.commitTs = some ts) : Move m a m'
  | draw {i : Nat} {tx : Transaction} (hth : m.threads[i]? = some ⟨tx, .checked⟩) :
      Move m (.advance i)
        ({ m with manager := { m.manager with oracle := m.manager.oracle.next.2 } }.setThread i
          ⟨tx, .drawn m.manager.oracle.counter⟩)
  | write {i : Nat} {tx : Transaction} {ts : UInt64} {batch : WriteBatch}
      (hth : m.threads[i]? = some ⟨tx, .drawn ts⟩)
      (hbatch : MvccStore.versionedBatch tx.writes ts = .ok batch) :
      Move m (.advance i)
        ({ m with
            manager := { m.manager with db := m.manager.db.write batch }
            stored := if tx.writeSet = [] then m.stored else ts :: m.stored }.setThread i
          ⟨tx, .written ts⟩)
  | persist {i : Nat} {tx : Transaction} {counter : UInt64}
      (hth : m.threads[i]? = some ⟨tx, .loaded counter⟩) :
      Move m (.advance i)
        ({ m with
            manager := { m.manager with
              db := MvccStore.persistTimestamp m.manager.db ⟨counter⟩ } }.finish i tx)

theorem onIdle_move (m : Machine) (a : Action) (i : Nat) {f : Transaction → TxResult Transaction}
    (hf : ∀ tx tx', f tx = .ok tx' → tx'.snapshotTs = tx.snapshotTs) : Move m a (m.onIdle i f) := by
  unfold onIdle
  split
  · next tx hth =>
    cases hr : f tx with
    | error e => exact .stay a
    | ok tx' =>
      exact .silent hth rfl rfl rfl rfl (hf tx tx' hr) (by simp) (by simp [Phase.commitTs])
  · exact .stay a

theorem buffer_snapshotTs {tx tx' : Transaction} {w : BufferedWrite} (h : tx.buffer w = .ok tx') :
    tx'.snapshotTs = tx.snapshotTs := by
  unfold Transaction.buffer at h
  split at h
  · cases h
  · cases h
    rfl

theorem rollback_snapshotTs {tx tx' : Transaction} (h : TransactionManager.rollback tx = .ok tx') :
    tx'.snapshotTs = tx.snapshotTs := by
  unfold TransactionManager.rollback at h
  split at h
  · cases h
  · cases h
    rfl

theorem advance_move {m : Machine} {i : Nat} {th : Thread} (hth : m.threads[i]? = some th) :
    Move m (.advance i) (m.advance i th) := by
  obtain ⟨tx, phase⟩ := th
  cases phase with
  | idle =>
    simp only [advance]
    split
    · exact .stay _
    · split
      · exact .stay _
      · exact .silent hth rfl rfl rfl rfl rfl (by simp) (by simp [Phase.commitTs])
  | locked =>
    simp only [advance]
    split <;> exact .silent hth rfl rfl rfl rfl rfl (by simp) (by simp [Phase.commitTs])
  | checked => exact .draw hth
  | drawn ts =>
    cases hb : MvccStore.versionedBatch tx.writes ts with
    | error e =>
      have hw : MvccStore.batchWriteAt m.manager.db tx.writes ts = .error e := by
        simp [MvccStore.batchWriteAt, hb, bind, Except.bind]
      simp only [advance, hw]
      exact .silent hth rfl rfl rfl rfl rfl (by simp) (by simp [Phase.commitTs])
    | ok batch =>
      have hw : MvccStore.batchWriteAt m.manager.db tx.writes ts =
          .ok (m.manager.db.write batch) := by
        simp [MvccStore.batchWriteAt, hb, bind, Except.bind, pure, Except.pure]
      simp only [advance, hw]
      exact .write hth hb
  | written ts => exact .silent hth rfl rfl rfl rfl rfl (by simp) (by simp [Phase.commitTs])
  | recorded ts => exact .silent hth rfl rfl rfl rfl rfl (by simp) (by simp [Phase.commitTs])
  | released ts =>
    simp only [advance]
    split <;> exact .silent hth rfl rfl rfl rfl rfl (by simp) (by simp [Phase.commitTs])
  | loaded counter => exact .persist hth

/-- **There is no other way to move.** -/
theorem step_move (m : Machine) (a : Action) : Move m a (m.step a) := by
  cases a with
  | begin => exact .begin
  | put i cfName key value => exact m.onIdle_move _ i fun _ _ h => buffer_snapshotTs h
  | delete i cfName key => exact m.onIdle_move _ i fun _ _ h => buffer_snapshotTs h
  | rollback i => exact m.onIdle_move _ i fun _ _ h => rollback_snapshotTs h
  | advance i =>
    simp only [step]
    split
    · next th hth => exact advance_move hth
    · exact .stay _

end Machine

end Synaptica.Tx
