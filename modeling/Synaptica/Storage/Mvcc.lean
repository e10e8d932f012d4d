import Synaptica.Lib.BigEndian
import Synaptica.Lib.Versioned
import Synaptica.Storage.RocksDb

/-!
# Multi-version storage

`MvccStore` keeps the versions of a key side by side in a column family: the version of `key` at
`timestamp` is the entry `key ++ !timestamp`, with the timestamp inverted so that newer versions
sort first. A read at a snapshot seeks to the newest possible version of the key and walks forward
until it meets a version it may see.

The first half is the code: the timestamp oracle, the key codec and the store's operations. The
second half is what the codec guarantees — versioned keys decode to what they were built from, and
among the versions of *one* key byte order is newest-first order.
-/

namespace Synaptica.Storage

open BigEndian

/-! ## Errors -/

inductive MvccError where
  | internal (msg : String)
  | serialization (msg : String)
  | deserialization (msg : String)
  | notFound
  deriving DecidableEq, Repr

abbrev MvccResult := Except MvccError

/-- Look up a column family, as every operation of the store does first. -/
def mvccCf (cfName : String) : MvccResult ColumnFamily :=
  match cfHandle cfName with
  | some c => .ok c
  | none => .error (.internal s!"column family not found: {cfName}")

/-! ## The timestamp oracle -/

/-- Hands out timestamps. The counter is a `u64` and wraps around. -/
structure TimestampOracle where
  counter : UInt64
  deriving DecidableEq, Repr

namespace TimestampOracle

/-- `b"__ts_oracle_counter__"`: the record of the oracle in the default column family. -/
def tsOracleKey : Bytes :=
  [0x5f, 0x5f, 0x74, 0x73, 0x5f, 0x6f, 0x72, 0x61, 0x63, 0x6c, 0x65, 0x5f, 0x63, 0x6f, 0x75, 0x6e,
    0x74, 0x65, 0x72, 0x5f, 0x5f]

example : tsOracleKey = "__ts_oracle_counter__".toByteArray.data.toList := by decide

def new : TimestampOracle := ⟨1⟩

/-- Start above a persisted value. -/
def newFromPersisted (persistedTs : UInt64) : TimestampOracle := ⟨persistedTs + 1⟩

/-- `u64::from_be_bytes` of an eight-byte value; anything else is ignored. -/
def decodeCounter (bytes : Bytes) : Option UInt64 :=
  if bytes.length = 8 then some (UInt64.ofNat (beValue bytes)) else none

/-- The persisted counter, `0` where there is none. -/
def persisted (db : Db) : UInt64 := (((db .default)[tsOracleKey]?).bind decodeCounter).getD 0

def loadFromDb (db : Db) : TimestampOracle := newFromPersisted (persisted db)

def persistToDb (oracle : TimestampOracle) (db : Db) : Db :=
  db.write [.put .default tsOracleKey (beBytes 8 oracle.counter.toNat)]

/-- `fetch_add(1)`: the counter before the increment, and the oracle after it. -/
def next (oracle : TimestampOracle) : UInt64 × TimestampOracle :=
  (oracle.counter, ⟨oracle.counter + 1⟩)

def current (oracle : TimestampOracle) : UInt64 := oracle.counter

end TimestampOracle

/-! ## Versioned keys -/

/-- `u64::MAX`. -/
def u64Max : UInt64 := 0xFFFFFFFFFFFFFFFF

/-- The key followed by the inverted timestamp. -/
def encodeVersionedKey (key : Bytes) (timestamp : UInt64) : Bytes :=
  key ++ beBytes 8 (~~~timestamp).toNat

def decodeVersionedTimestamp (versionedKey : Bytes) : Option UInt64 :=
  if versionedKey.length < 8 then none
  else some (~~~(UInt64.ofNat (beValue (versionedKey.drop (versionedKey.length - 8)))))

def extractKeyPrefix (versionedKey : Bytes) : Bytes :=
  if 8 ≤ versionedKey.length then versionedKey.take (versionedKey.length - 8) else versionedKey

/-- The value that marks a deletion. -/
def tombstone : Bytes := []

def isTombstone (value : Bytes) : Bool := value.isEmpty

/-! ## Operations of the store -/

namespace MvccStore

def putAt (db : Db) (cfName : String) (key value : Bytes) (timestamp : UInt64) :
    MvccResult Db := do
  let c ← mvccCf cfName
  return db.write [.put c (encodeVersionedKey key timestamp) value]

def deleteAt (db : Db) (cfName : String) (key : Bytes) (timestamp : UInt64) : MvccResult Db :=
  putAt db cfName key tombstone timestamp

/-- The loop of `get_at` over the entries an iterator yields. -/
def getAtLoop (key : Bytes) (snapshotTs : UInt64) : List (Bytes × Bytes) → Option Bytes
  | [] => none
  | (k, v) :: rest =>
    -- this entry no longer belongs to our key
    if extractKeyPrefix k ≠ key then none
    else if (decodeVersionedTimestamp k).getD 0 ≤ snapshotTs then
      if isTombstone v then none else some v
    else getAtLoop key snapshotTs rest

/-- `get_at` on an opened column family. -/
def readAt (table : Table) (key : Bytes) (snapshotTs : UInt64) : Option Bytes :=
  getAtLoop key snapshotTs (OrderedMap.seek table (encodeVersionedKey key u64Max))

def getAt (db : Db) (cfName : String) (key : Bytes) (snapshotTs : UInt64) :
    MvccResult (Option Bytes) := do
  let c ← mvccCf cfName
  return readAt (db c) key snapshotTs

/-- The loop of `prefix_scan_at`; `lastKey` is the key last reported or hidden by a tombstone. -/
def prefixScanLoop (pre : Bytes) (snapshotTs : UInt64) :
    Option Bytes → List (Bytes × Bytes) → List (Bytes × Bytes)
  | _, [] => []
  | lastKey, (k, v) :: rest =>
    let keyPrefix := extractKeyPrefix k
    if ¬ pre <+: keyPrefix then []
    else if lastKey = some keyPrefix then prefixScanLoop pre snapshotTs lastKey rest
    else if (decodeVersionedTimestamp k).getD 0 ≤ snapshotTs then
      if isTombstone v then prefixScanLoop pre snapshotTs (some keyPrefix) rest
      else (keyPrefix, v) :: prefixScanLoop pre snapshotTs (some keyPrefix) rest
    else prefixScanLoop pre snapshotTs lastKey rest

/-- `prefix_scan_at` on an opened column family. -/
def scanAt (table : Table) (pre : Bytes) (snapshotTs : UInt64) : List (Bytes × Bytes) :=
  prefixScanLoop pre snapshotTs none (OrderedMap.seek table (encodeVersionedKey pre u64Max))

def prefixScanAt (db : Db) (cfName : String) (pre : Bytes) (snapshotTs : UInt64) :
    MvccResult (List (Bytes × Bytes)) := do
  let c ← mvccCf cfName
  return scanAt (db c) pre snapshotTs

/-- The batch `batch_write_at` builds; an unknown column family aborts it. -/
def versionedBatch (writes : List (String × Bytes × Option Bytes)) (timestamp : UInt64) :
    MvccResult WriteBatch :=
  writes.mapM fun w => do
    let c ← mvccCf w.1
    return .put c (encodeVersionedKey w.2.1 timestamp) (w.2.2.getD tombstone)

def batchWriteAt (db : Db) (writes : List (String × Bytes × Option Bytes)) (timestamp : UInt64) :
    MvccResult Db := do
  let batch ← versionedBatch writes timestamp
  return db.write batch

/-- Persist the oracle's counter. -/
def persistTimestamp (db : Db) (oracle : TimestampOracle) : Db := oracle.persistToDb db

end MvccStore

/-! ## The codec -/

theorem toNat_not_lt (t : UInt64) : (~~~t).toNat < 256 ^ 8 := by
  have := UInt64.toNat_lt (~~~t)
  norm_num
  omega

@[simp] theorem length_encodeVersionedKey (k : Bytes) (t : UInt64) :
    (encodeVersionedKey k t).length = k.length + 8 := by
  simp [encodeVersionedKey]

@[simp] theorem extractKeyPrefix_encode (k : Bytes) (t : UInt64) :
    extractKeyPrefix (encodeVersionedKey k t) = k := by
  simp [extractKeyPrefix, encodeVersionedKey]

@[simp] theorem decodeVersionedTimestamp_encode (k : Bytes) (t : UInt64) :
    decodeVersionedTimestamp (encodeVersionedKey k t) = some t := by
  have hlen : ¬ k.length + 8 < 8 := by omega
  have hdrop : (encodeVersionedKey k t).drop (k.length + 8 - 8) = beBytes 8 (~~~t).toNat := by
    simp [encodeVersionedKey]
  rw [decodeVersionedTimestamp, length_encodeVersionedKey, if_neg hlen, hdrop,
    beValue_beBytes (toNat_not_lt t), UInt64.ofNat_toNat, UInt64.not_not]

/-- Every string of at least eight bytes is the versioned key it decodes to. -/
theorem encode_extract_decode {b : Bytes} (h : 8 ≤ b.length) :
    encodeVersionedKey (extractKeyPrefix b) ((decodeVersionedTimestamp b).getD 0) = b := by
  have hlen : (b.drop (b.length - 8)).length = 8 := by
    rw [List.length_drop]
    omega
  have hval : beValue (b.drop (b.length - 8)) < 2 ^ 64 := by
    have := beValue_lt (b.drop (b.length - 8))
    rw [hlen] at this
    norm_num at this ⊢
    omega
  have hts : beBytes 8 (beValue (b.drop (b.length - 8))) = b.drop (b.length - 8) := by
    have := beBytes_beValue (b.drop (b.length - 8))
    rwa [hlen] at this
  rw [extractKeyPrefix, if_pos h, decodeVersionedTimestamp, if_neg (by omega), Option.getD_some,
    encodeVersionedKey, UInt64.not_not, UInt64.toNat_ofNat', Nat.mod_eq_of_lt hval, hts]
  exact List.take_append_drop _ _

theorem encodeVersionedKey_inj {k k' : Bytes} {t t' : UInt64} :
    encodeVersionedKey k t = encodeVersionedKey k' t' ↔ k = k' ∧ t = t' := by
  constructor
  · intro h
    refine ⟨by simpa using congrArg extractKeyPrefix h, ?_⟩
    simpa using congrArg decodeVersionedTimestamp h
  · rintro ⟨rfl, rfl⟩
    rfl

/-- **Newest first**: among the versions of one key, byte order reverses time. -/
theorem encodeVersionedKey_lt_iff (k : Bytes) (t t' : UInt64) :
    encodeVersionedKey k t < encodeVersionedKey k t' ↔ t' < t := by
  rw [encodeVersionedKey, encodeVersionedKey, LexOrder.append_lt_append_iff,
    beBytes_lt_iff (toNat_not_lt t) (toNat_not_lt t'), UInt64.lt_iff_toNat_lt, UInt64.toNat_not,
    UInt64.toNat_not]
  have := UInt64.toNat_lt t
  have := UInt64.toNat_lt t'
  simp only [UInt64.size]
  omega

theorem le_u64Max (t : UInt64) : t ≤ u64Max := by
  have := UInt64.toNat_lt t
  rw [UInt64.le_iff_toNat_le, show u64Max.toNat = 2 ^ 64 - 1 from rfl]
  omega

/-- A read starts at or before every version of its key. -/
theorem encode_u64Max_le (k : Bytes) (t : UInt64) :
    encodeVersionedKey k u64Max ≤ encodeVersionedKey k t := by
  rw [← not_lt, encodeVersionedKey_lt_iff, not_lt]
  exact le_u64Max t

theorem prefix_encodeVersionedKey (k : Bytes) (t : UInt64) : k <+: encodeVersionedKey k t :=
  List.prefix_append _ _

end Synaptica.Storage
