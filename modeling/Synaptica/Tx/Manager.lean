import Synaptica.Lib.Run
import Synaptica.Storage.MvccReads

/-!
# Transactions

The code of the transaction layer. A `Transaction` buffers its writes and reads its own buffer
first, then the store at its snapshot timestamp. The `TransactionManager` hands out transactions
and commits them optimistically: a table of recent commits is consulted for write-write conflicts,
a commit timestamp is drawn, the buffer is written at that timestamp, and the commit is entered in
the table, which is pruned once it outgrows a threshold.

`Session` drives one manager and any number of transactions through a run of operations, each of
them atomic, and keeps the responses the clients have seen.
-/

namespace Synaptica.Tx

open Storage

/-! ## Transactions -/

inductive TxError where
  | mvcc (e : MvccError)
  | writeConflict
  | notActive
  | alreadyCommitted
  | alreadyRolledBack
  | serialization (msg : String)
  deriving DecidableEq, Repr

abbrev TxResult := Except TxError

inductive TxState where
  | active
  | committed
  | rolledBack
  deriving DecidableEq, Repr

/-- A write held back until commit; `value = none` deletes. -/
structure BufferedWrite where
  cfName : String
  key : Bytes
  value : Option Bytes
  deriving DecidableEq, Repr

structure Transaction where
  id : UInt64
  snapshotTs : UInt64
  state : TxState
  writeSet : List BufferedWrite
  deriving DecidableEq, Repr

namespace Transaction

def new (id snapshotTs : UInt64) : Transaction :=
  { id, snapshotTs, state := .active, writeSet := [] }

/-- The last buffered write of a key, if there is one. -/
def ownWrite (tx : Transaction) (cfName : String) (key : Bytes) : Option BufferedWrite :=
  tx.writeSet.reverse.find? (fun w => decide (w.cfName = cfName ∧ w.key = key))

/-- Own writes first, then the store at the snapshot. -/
def get (tx : Transaction) (db : Db) (cfName : String) (key : Bytes) : TxResult (Option Bytes) :=
  if tx.state ≠ .active then .error .notActive
  else
    match tx.ownWrite cfName key with
    | some w => .ok w.value
    | none => (MvccStore.getAt db cfName key tx.snapshotTs).mapError .mvcc

/-- Append to the write buffer of an active transaction. -/
def buffer (tx : Transaction) (w : BufferedWrite) : TxResult Transaction :=
  if tx.state ≠ .active then .error .notActive
  else .ok { tx with writeSet := tx.writeSet ++ [w] }

def put (tx : Transaction) (cfName : String) (key value : Bytes) : TxResult Transaction :=
  tx.buffer ⟨cfName, key, some value⟩

def delete (tx : Transaction) (cfName : String) (key : Bytes) : TxResult Transaction :=
  tx.buffer ⟨cfName, key, none⟩

/-- The keys of the write set. -/
def writeKeys (tx : Transaction) : List (String × Bytes) :=
  tx.writeSet.map fun w => (w.cfName, w.key)

/-- The write set in the form `batch_write_at` takes. -/
def writes (tx : Transaction) : List (String × Bytes × Option Bytes) :=
  tx.writeSet.map fun w => (w.cfName, w.key, w.value)

end Transaction

/-! ## The manager -/

structure TransactionManager where
  db : Db
  oracle : TimestampOracle
  /-- Commit timestamp to the keys that commit wrote. -/
  committedWrites : OrderedMap UInt64 (List (String × Bytes))
  gcWatermark : UInt64

/-- Above this many entries the table of commits is pruned. -/
def gcThreshold : Nat := 10000

/-- `u64::saturating_sub`. -/
def saturatingSub (a b : UInt64) : UInt64 := if b ≤ a then a - b else 0

namespace TransactionManager

def new (db : Db) (oracle : TimestampOracle) : TransactionManager :=
  { db, oracle, committedWrites := ∅, gcWatermark := 0 }

/-- A transaction takes the next timestamp as its id and reads just below it. -/
def begin (m : TransactionManager) : Transaction × TransactionManager :=
  let (txId, oracle) := m.oracle.next
  (Transaction.new txId (txId - 1), { m with oracle })

/-- Did a commit since the snapshot of `tx` write one of its keys? -/
def conflicts (m : TransactionManager) (tx : Transaction) : Bool :=
  !tx.writeKeys.isEmpty &&
    m.committedWrites.toList.any fun (commitTs, keys) =>
      decide (tx.snapshotTs < commitTs) && keys.any fun key => decide (key ∈ tx.writeKeys)

/-- Prune the table of commits after the commit at `commitTs`. -/
def prune (table : OrderedMap UInt64 (List (String × Bytes))) (commitTs : UInt64) :
    OrderedMap UInt64 (List (String × Bytes)) :=
  if gcThreshold < table.size then
    let gcWatermark := saturatingSub commitTs (UInt64.ofNat gcThreshold)
    table.filter fun ts _ => decide (gcWatermark < ts)
  else table

/-- Enter a commit in the table, then prune it. -/
def recordCommit (m : TransactionManager) (tx : Transaction) (commitTs : UInt64) :
    TransactionManager :=
  { m with committedWrites := prune (m.committedWrites.insert commitTs tx.writeKeys) commitTs }

/-- Persist the counter after every hundredth timestamp. -/
def persistPeriodically (m : TransactionManager) (commitTs : UInt64) : TransactionManager :=
  if commitTs % 100 = 0 then { m with db := MvccStore.persistTimestamp m.db m.oracle } else m

def commit (m : TransactionManager) (tx : Transaction) :
    TxResult UInt64 × Transaction × TransactionManager :=
  if tx.state ≠ .active then (.error .alreadyCommitted, tx, m)
  else if m.conflicts tx then (.error .writeConflict, tx, m)
  else
    let (commitTs, oracle) := m.oracle.next
    match MvccStore.batchWriteAt m.db tx.writes commitTs with
    -- the timestamp is spent, the transaction stays active
    | .error e => (.error (.mvcc e), tx, { m with oracle })
    | .ok db =>
      let m := { m with db, oracle }
      let m := (m.recordCommit tx commitTs).persistPeriodically commitTs
      (.ok commitTs, { tx with state := .committed }, m)

def rollback (tx : Transaction) : TxResult Transaction :=
  if tx.state ≠ .active then .error .notActive else .ok { tx with state := .rolledBack }

/-- A read-only snapshot is the timestamp the oracle stands at. -/
def snapshot (m : TransactionManager) : UInt64 := m.oracle.current

end TransactionManager

/-- `Snapshot::get`. -/
def Snapshot.get (ts : UInt64) (db : Db) (cfName : String) (key : Bytes) :
    TxResult (Option Bytes) :=
  (MvccStore.getAt db cfName key ts).mapError .mvcc

/-- `Snapshot::prefix_scan`. -/
def Snapshot.prefixScan (ts : UInt64) (db : Db) (cfName : String) (pre : Bytes) :
    TxResult (List (Bytes × Bytes)) :=
  (MvccStore.prefixScanAt db cfName pre ts).mapError .mvcc

/-! ## Runs of atomic operations -/

/-- An operation of a client; transactions are named by the order they began in. -/
inductive Op where
  | begin
  | get (tx : Nat) (cfName : String) (key : Bytes)
  | put (tx : Nat) (cfName : String) (key value : Bytes)
  | delete (tx : Nat) (cfName : String) (key : Bytes)
  | commit (tx : Nat)
  | rollback (tx : Nat)
  deriving DecidableEq, Repr

/-- What the client is answered. -/
inductive Response where
  | began
  | read (r : TxResult (Option Bytes))
  | done (r : TxResult Unit)
  | committed (r : TxResult UInt64)
  /-- No transaction of that name has begun. -/
  | noTransaction
  deriving DecidableEq, Repr

structure Session where
  manager : TransactionManager
  /-- Every transaction begun so far, oldest first. -/
  txs : List Transaction
  /-- The operations performed and their responses, latest first. -/
  history : List (Op × Response)

namespace Session

/-- An empty store and a fresh oracle. -/
def init : Session :=
  { manager := TransactionManager.new Db.empty TimestampOracle.new, txs := [], history := [] }

/-- Replace transaction `i` where an operation on it succeeded. -/
def update (s : Session) (i : Nat) (r : TxResult Transaction) : Session :=
  match r with
  | .ok tx => { s with txs := s.txs.set i tx }
  | .error _ => s

def respond (s : Session) (op : Op) (r : Response) : Session :=
  { s with history := (op, r) :: s.history }

def step (s : Session) (op : Op) : Session :=
  match op with
  | .begin =>
    let (tx, manager) := s.manager.begin
    { s with manager, txs := s.txs ++ [tx] }.respond op .began
  | .get i cfName key =>
    match s.txs[i]? with
    | none => s.respond op .noTransaction
    | some tx => s.respond op (.read (tx.get s.manager.db cfName key))
  | .put i cfName key value =>
    match s.txs[i]? with
    | none => s.respond op .noTransaction
    | some tx =>
      let r := tx.put cfName key value
      (s.update i r).respond op (.done (r.map fun _ => ()))
  | .delete i cfName key =>
    match s.txs[i]? with
    | none => s.respond op .noTransaction
    | some tx =>
      let r := tx.delete cfName key
      (s.update i r).respond op (.done (r.map fun _ => ()))
  | .commit i =>
    match s.txs[i]? with
    | none => s.respond op .noTransaction
    | some tx =>
      let (r, tx, manager) := s.manager.commit tx
      { s with manager, txs := s.txs.set i tx }.respond op (.committed r)
  | .rollback i =>
    match s.txs[i]? with
    | none => s.respond op .noTransaction
    | some tx =>
      let r := TransactionManager.rollback tx
      (s.update i r).respond op (.done (r.map fun _ => ()))

abbrev run (s : Session) (ops : List Op) : Session := Run.exec step s ops

/-- The oracle can hand out a timestamp without wrapping around. -/
def TimestampLeft (s : Session) : Prop := s.manager.oracle.counter ≠ u64Max

instance (s : Session) : Decidable s.TimestampLeft := inferInstanceAs (Decidable (_ ≠ _))

end Session

end Synaptica.Tx
