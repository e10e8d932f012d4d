import Synaptica.Storage.Engine

/-!
# The Raft log and state on RocksDB

`RocksLogStore` keeps the entries of the Raft log in the column family `RAFT_LOG`, under their index
as a big-endian `u64`, and its metadata in `RAFT_META`. Every `put` and `delete` is a durable write
of its own, so that a crash may fall between any two of them. The calls are `RaftM` computations,
whose journal lists the writes.

The types of `openraft` are modelled as far as the store reads them. The applier, which executes the
committed requests on the same database, is a parameter.
-/

namespace Synaptica.Cluster

open Storage BigEndian

/-! ## The types of the log -/

/-- The leader that proposed an entry, `CommittedLeaderId`. -/
structure LeaderId where
  term : UInt64
  nodeId : UInt64
  deriving DecidableEq, Repr

structure LogId where
  leaderId : LeaderId
  index : UInt64
  deriving DecidableEq, Repr

/-- The derived order: by term, then by node. -/
instance : LinearOrder LeaderId :=
  LinearOrder.lift' (fun l => toLex (l.term.toNat, l.nodeId.toNat)) (by
    intro a b h
    cases a
    cases b
    simpa [UInt64.toNat_inj] using h)

/-- The derived order: by leader, then by index. -/
instance : LinearOrder LogId :=
  LinearOrder.lift' (fun l => toLex (l.leaderId, l.index.toNat)) (by
    intro a b h
    cases a
    cases b
    simpa [UInt64.toNat_inj] using h)

theorem LogId.le_iff {a b : LogId} :
    a ≤ b ↔ a.leaderId < b.leaderId ∨ a.leaderId = b.leaderId ∧ a.index.toNat ≤ b.index.toNat := by
  show toLex (a.leaderId, a.index.toNat) ≤ toLex (b.leaderId, b.index.toNat) ↔ _
  exact Prod.Lex.toLex_le_toLex

inductive RaftRequest where
  | writeQuery (query graphName : String)
  deriving DecidableEq, Repr

structure RaftResponse where
  success : Bool
  error : Option String
  rowsAffected : Int
  nodesCreated : Int
  nodesDeleted : Int
  edgesCreated : Int
  edgesDeleted : Int
  propertiesSet : Int
  deriving DecidableEq, Repr

/-- `RaftResponse \x7b success: true, ..default \x7d`. -/
def RaftResponse.ok : RaftResponse :=
  ⟨true, none, 0, 0, 0, 0, 0, 0⟩

structure Membership where
  configs : List (List UInt64)
  /-- The address of each node. -/
  nodes : List (UInt64 × String)
  deriving DecidableEq, Repr

structure StoredMembership where
  logId : Option LogId
  membership : Membership
  deriving DecidableEq, Repr

/-- The default: no log id and no configuration. -/
def StoredMembership.default : StoredMembership := ⟨none, ⟨[], []⟩⟩

inductive EntryPayload where
  | blank
  | normal (request : RaftRequest)
  | membership (membership : Membership)
  deriving DecidableEq, Repr

structure Entry where
  logId : LogId
  payload : EntryPayload
  deriving DecidableEq, Repr

/-- `bincode` at the types of the log. -/
structure RaftBincode where
  entry : Codec Entry
  logId : Codec LogId
  membership : Codec StoredMembership

structure RaftBincode.RoundTrips (bin : RaftBincode) : Prop where
  entry : bin.entry.RoundTrips
  logId : bin.logId.RoundTrips
  membership : bin.membership.RoundTrips

/-- `StorageIOError`: what failed, and the text of the cause. -/
inductive StorageIoError where
  | readLogs (source : String)
  | writeLogEntry (logId : LogId) (source : String)
  | read (source : String)
  | write (source : String)
  | readStateMachine (source : String)
  deriving DecidableEq, Repr

/-- A call that may write. -/
abbrev RaftM := Journaled Db WriteBatch StorageIoError

structure LogState where
  lastPurgedLogId : Option LogId
  lastLogId : Option LogId
  deriving DecidableEq, Repr

/-- Executes a committed request on the database: the response, and the writes it makes. -/
structure StateMachineApplier where
  apply : RaftRequest → Db → RaftResponse × List WriteBatch

namespace RocksLogStore

def lastPurgedKey : Bytes := utf8 "raft_last_purged"

def lastAppliedKey : Bytes := utf8 "raft_last_applied"

def lastMembershipKey : Bytes := utf8 "raft_last_membership"

def indexToKey (index : UInt64) : Bytes := beBytes 8 index.toNat

variable (bin : RaftBincode)

/-! ## The log -/

/-- `raft_log_last`: the value under the last key. -/
def raftLogLast (db : Db) : Option Bytes := (db .raftLog).toList.getLast?.map Prod.snd

/-- `raft_log_scan_from`. -/
def raftLogScanFrom (db : Db) (startKey : Bytes) : List (Bytes × Bytes) :=
  OrderedMap.seek (db .raftLog) startKey

def lastLogIdSync (db : Db) : Except StorageIoError (Option LogId) :=
  match raftLogLast db with
  | some value => do
    let entry ← (bin.entry.deserialize value).mapError .readLogs
    pure (some entry.logId)
  | none => pure none

/-- `std::ops::Bound`. -/
inductive Bound where
  | included (i : UInt64)
  | excluded (i : UInt64)
  | unbounded
  deriving DecidableEq, Repr

/-- The loop of `read_log_entries_sync`, which breaks at the first index that is not below the end. -/
def readEntries (stop : Option UInt64) : List (Bytes × Bytes) → Except StorageIoError (List Entry)
  | [] => pure []
  | (key, value) :: scanned =>
    if key.length ≠ 8 then readEntries stop scanned
    else if stop.any (· ≤ UInt64.ofNat (beValue key)) then pure []
    else do
      let entry ← (bin.entry.deserialize value).mapError .readLogs
      let entries ← readEntries stop scanned
      pure (entry :: entries)

def readLogEntriesSync (start : UInt64) (stop : Option UInt64) (db : Db) :
    Except StorageIoError (List Entry) :=
  readEntries bin stop (raftLogScanFrom db (indexToKey start))

def tryGetLogEntries (lower upper : Bound) (db : Db) : Except StorageIoError (List Entry) :=
  let start :=
    match lower with
    | .included s => s
    | .excluded s => s + 1
    | .unbounded => 0
  let stop :=
    match upper with
    | .included e => some (e + 1)
    | .excluded e => some e
    | .unbounded => none
  readLogEntriesSync bin start stop db

/-- A stored value of the metadata, decoded. -/
def metaGet {α : Type} (c : Codec α) (key : Bytes) (err : String → StorageIoError) (db : Db) :
    Except StorageIoError (Option α) :=
  match (db .raftMeta)[key]? with
  | none => pure none
  | some value => do
    let a ← (c.deserialize value).mapError err
    pure (some a)

def getLogState (db : Db) : Except StorageIoError LogState := do
  let lastPurged ← metaGet bin.logId lastPurgedKey .read db
  let lastLogId ← lastLogIdSync bin db
  pure ⟨lastPurged, lastLogId <|> lastPurged⟩

/-- Delete keys of the log, each in a write of its own. -/
def deleteKeys (keys : List Bytes) : RaftM Unit :=
  keys.forM fun key => Journaled.write [.delete .raftLog key]

def deleteLogsFromSync (fromIndex : UInt64) : RaftM Unit := do
  let keys ← Journaled.read fun db =>
    .ok ((raftLogScanFrom db (indexToKey fromIndex)).map Prod.fst)
  deleteKeys keys

/-- `u64::saturating_add(1)`. -/
def saturatingSucc (n : UInt64) : UInt64 :=
  if n.toNat + 1 < 2 ^ 64 then n + 1 else n

def deleteLogsUptoSync (uptoIndex : UInt64) : RaftM Unit := do
  let keys ← Journaled.read fun db =>
    .ok (((raftLogScanFrom db (indexToKey 0)).map Prod.fst).filter
      (· < indexToKey (saturatingSucc uptoIndex)))
  deleteKeys keys

def deleteConflictLogsSince (logId : LogId) : RaftM Unit := deleteLogsFromSync logId.index

def purgeLogsUpto (logId : LogId) : RaftM Unit := do
  let bytes ← Journaled.read fun _ => (bin.logId.serialize logId).mapError .write
  Journaled.write [.put .raftMeta lastPurgedKey bytes]
  deleteLogsUptoSync logId.index

/-- One round of `append_to_log`. -/
def appendEntry (entry : Entry) : RaftM Unit := do
  let value ← Journaled.read fun _ =>
    (bin.entry.serialize entry).mapError (.writeLogEntry entry.logId)
  Journaled.write [.put .raftLog (indexToKey entry.logId.index) value]

def appendToLog (entries : List Entry) : RaftM Unit := entries.forM (appendEntry bin)

/-! ## The state machine -/

def lastAppliedState (db : Db) : Except StorageIoError (Option LogId × StoredMembership) := do
  let lastApplied ← metaGet bin.logId lastAppliedKey .readStateMachine db
  let lastMembership ← metaGet bin.membership lastMembershipKey .readStateMachine db
  pure (lastApplied, lastMembership.getD .default)

/-- The request, executed by the applier if there is one. -/
def applyRequest (applier : Option StateMachineApplier) (request : RaftRequest) :
    RaftM RaftResponse := fun db =>
  match applier with
  | none => ⟨.ok .ok, []⟩
  | some applier =>
    let (response, writes) := applier.apply request db
    ⟨.ok response, writes⟩

/-- The part of a round of `apply_to_state_machine` that depends on the payload. -/
def applyPayload (applier : Option StateMachineApplier) (entry : Entry) : RaftM RaftResponse :=
  match entry.payload with
  | .blank => pure .ok
  | .membership mem => do
    let bytes ← Journaled.read fun _ =>
      (bin.membership.serialize ⟨some entry.logId, mem⟩).mapError .write
    Journaled.write [.put .raftMeta lastMembershipKey bytes]
    pure .ok
  | .normal request => applyRequest applier request

/-- One round of `apply_to_state_machine`: the marker first, then the entry. -/
def applyEntry (applier : Option StateMachineApplier) (entry : Entry) : RaftM RaftResponse := do
  let bytes ← Journaled.read fun _ => (bin.logId.serialize entry.logId).mapError .write
  Journaled.write [.put .raftMeta lastAppliedKey bytes]
  applyPayload bin applier entry

def applyToStateMachine (applier : Option StateMachineApplier) :
    List Entry → RaftM (List RaftResponse)
  | [] => pure []
  | entry :: entries => do
    let response ← applyEntry bin applier entry
    let responses ← applyToStateMachine applier entries
    pure (response :: responses)

end RocksLogStore

end Synaptica.Cluster
