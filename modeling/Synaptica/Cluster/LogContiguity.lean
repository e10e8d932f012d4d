import Synaptica.Cluster.LogStore
import Synaptica.Lib.Run

/-!
# The Raft log across crashes

`append_to_log` puts its entries in ascending order, so that a crash loses a suffix of them.
`purge_logs_upto` writes its marker first and then deletes in ascending order, so that a crash
leaves a suffix of the log. `delete_conflict_logs_since` deletes in ascending order too, which is
the wrong end: a crash leaves the entries below the conflict, those at the end of the log, and a
hole between them.

* `Sound` — what `get_log_state` and the stored indices must look like in a reopened store.
* `Interrupted.Safe` — the steps after which it still does.
* `Inv` — the invariant; `Inv.sound` — it makes a store sound.
* `sound_of_safe` — a run of safe steps leaves a sound store.
* `delete_conflict_leaves_hole` — a run that does not.
-/

namespace Synaptica.Cluster

open Storage RocksLogStore BigEndian

/-! ## Keys -/

theorem indexToKey_inj {i j : UInt64} : indexToKey i = indexToKey j ↔ i = j := by
  unfold indexToKey
  rw [beBytes_inj (by simpa using i.toNat_lt) (by simpa using j.toNat_lt), UInt64.toNat_inj]

theorem indexToKey_lt_iff {i j : UInt64} : indexToKey i < indexToKey j ↔ i.toNat < j.toNat := by
  unfold indexToKey
  exact beBytes_lt_iff (by simpa using i.toNat_lt) (by simpa using j.toNat_lt)

theorem indexToKey_le_iff {i j : UInt64} : indexToKey i ≤ indexToKey j ↔ i.toNat ≤ j.toNat := by
  rw [← not_lt, indexToKey_lt_iff, not_lt]

theorem lt_saturatingSucc_iff {i n : UInt64} :
    i.toNat < (saturatingSucc n).toNat → i.toNat ≤ n.toNat := by
  unfold saturatingSucc
  split
  next h =>
    rw [UInt64.toNat_add]
    intro hi
    have hone : (1 : UInt64).toNat = 1 := rfl
    rw [hone, Nat.mod_eq_of_lt h] at hi
    omega
  next => omega

theorem le_of_saturatingSucc_le {i n : UInt64} (h : (saturatingSucc n).toNat ≤ i.toNat) :
    n.toNat ≤ i.toNat := by
  unfold saturatingSucc at h
  split at h
  next hlt =>
    have hone : (1 : UInt64).toNat = 1 := rfl
    rw [UInt64.toNat_add, hone, Nat.mod_eq_of_lt hlt] at h
    omega
  next => exact h

/-! ## Runs -/

variable (bin : RaftBincode)

inductive LogOp where
  | appendToLog (entries : List Entry)
  | deleteConflictLogsSince (logId : LogId)
  | purgeLogsUpto (logId : LogId)
  deriving DecidableEq, Repr

/-- The call. -/
def LogOp.call : LogOp → RaftM Unit
  | .appendToLog entries => RocksLogStore.appendToLog bin entries
  | .deleteConflictLogsSince logId => RocksLogStore.deleteConflictLogsSince logId
  | .purgeLogsUpto logId => RocksLogStore.purgeLogsUpto bin logId

/-- A call of which only the first `survived` durable writes get through before a crash; all of
them if there are not more. -/
structure Interrupted where
  op : LogOp
  survived : Nat
  deriving DecidableEq, Repr

/-- The store as it is reopened. -/
def logStep (db : Db) (c : Interrupted) : Db := Journaled.crash (c.op.call bin) c.survived db

/-- The indices follow one another and leaders do not go back. -/
def FollowsOn : Option LogId → List Entry → Prop
  | _, [] => True
  | last, e :: es =>
    (∀ l, last = some l → l.leaderId ≤ e.logId.leaderId ∧
      e.logId.index.toNat = l.index.toNat + 1) ∧ FollowsOn (some e.logId) es

/-- Appended entries are contiguous with the current last log id. -/
def LogOp.Contiguous (db : Db) : LogOp → Prop
  | .appendToLog entries => ∃ st, getLogState bin db = .ok st ∧ FollowsOn st.lastLogId entries
  | _ => True

/-- Is there an entry at this index? -/
def HasIndex (db : Db) (i : UInt64) : Prop := ((db .raftLog)[indexToKey i]?).isSome

/-- There is no hole among the indices above the last purged one, and the last log id that the store
reports is not below the last purged one. -/
def Sound (db : Db) : Prop :=
  ∃ st, getLogState bin db = .ok st ∧
    (∀ a i b, HasIndex db a → HasIndex db b →
      (∀ p, st.lastPurgedLogId = some p → p.index.toNat < a.toNat) →
      a.toNat < i.toNat → i.toNat < b.toNat → HasIndex db i) ∧
    (∀ p, st.lastPurgedLogId = some p → ∃ l, st.lastLogId = some l ∧ p ≤ l)

/-! ## What is stored -/

/-- An entry with this log id is stored. -/
def Stored (db : Db) (id : LogId) : Prop :=
  ∃ value entry, (db .raftLog)[indexToKey id.index]? = some value ∧
    bin.entry.deserialize value = .ok entry ∧ entry.logId = id

/-- The purge marker is stored and holds this log id. -/
def Purged (db : Db) (id : LogId) : Prop :=
  ∃ value, (db .raftMeta)[lastPurgedKey]? = some value ∧ bin.logId.deserialize value = .ok id

/-- The keys that `delete_conflict_logs_since` deletes, in its order. -/
def keysFrom (db : Db) (i : UInt64) : List Bytes :=
  (raftLogScanFrom db (indexToKey i)).map Prod.fst

/-- The keys that `purge_logs_upto` deletes, in its order. -/
def keysUpto (db : Db) (i : UInt64) : List Bytes :=
  ((raftLogScanFrom db (indexToKey 0)).map Prod.fst).filter (· < indexToKey (saturatingSucc i))

/-- The steps that cannot go wrong. A call of `delete_conflict_logs_since` either has no entries
below the conflict to keep, or it is not interrupted between its deletes and the conflict lies above
the last purged log id. A call of `purge_logs_upto` names a log id not above those stored from its
index on, and if it is interrupted after its marker with deletes to come, the log reaches up to that
index. -/
def Interrupted.Safe (db : Db) (c : Interrupted) : Prop :=
  match c.op with
  | .appendToLog _ => True
  | .deleteConflictLogsSince logId =>
    c.survived = 0 ∨ (∀ b, Stored bin db b → logId.index.toNat ≤ b.index.toNat) ∨
      ((keysFrom db logId.index).length ≤ c.survived ∧
        ∀ p, Purged bin db p → p.index.toNat < logId.index.toNat)
  | .purgeLogsUpto logId =>
    c.survived = 0 ∨
      ((∀ b, Stored bin db b → logId.index.toNat ≤ b.index.toNat → logId ≤ b) ∧
        ((keysUpto db logId.index).length < c.survived ∨
          ∃ b, Stored bin db b ∧ logId.index.toNat ≤ b.index.toNat))

structure Inv (db : Db) : Prop where
  /-- Every value of the log is an entry under its own index. -/
  decodes : ∀ key value, (db .raftLog)[key]? = some value →
    ∃ entry, bin.entry.deserialize value = .ok entry ∧ key = indexToKey entry.logId.index
  marker : ∀ value, (db .raftMeta)[lastPurgedKey]? = some value →
    ∃ id, bin.logId.deserialize value = .ok id
  interval : ∀ a c, Stored bin db a → Stored bin db c → ∀ i : UInt64, a.index.toNat < i.toNat →
    i.toNat < c.index.toNat → ∃ b, Stored bin db b ∧ b.index = i
  /-- From the purged index on no log id is below the purged one. -/
  above : ∀ p a, Purged bin db p → Stored bin db a → p.index.toNat ≤ a.index.toNat → p ≤ a
  /-- A log that is not empty reaches up to the purged index. -/
  reach : ∀ p a, Purged bin db p → Stored bin db a →
    ∃ b, Stored bin db b ∧ p.index.toNat ≤ b.index.toNat

section Views

variable {bin} {db : Db}

theorem Stored.unique {a b : LogId} (ha : Stored bin db a) (hb : Stored bin db b)
    (h : a.index = b.index) : a = b := by
  obtain ⟨v, e, hv, he, rfl⟩ := ha
  obtain ⟨v', e', hv', he', rfl⟩ := hb
  rw [h, hv'] at hv
  cases hv
  rw [he'] at he
  cases he
  rfl

theorem Purged.unique {a b : LogId} (ha : Purged bin db a) (hb : Purged bin db b) : a = b := by
  obtain ⟨v, hv, hd⟩ := ha
  obtain ⟨v', hv', hd'⟩ := hb
  rw [hv'] at hv
  cases hv
  rw [hd'] at hd
  cases hd
  rfl

/-- A key of the log is the key of a stored entry. -/
theorem Inv.stored_of_key (hinv : Inv bin db) {key value : Bytes}
    (h : (db .raftLog)[key]? = some value) : ∃ id, Stored bin db id ∧ key = indexToKey id.index := by
  obtain ⟨e, he, hkey⟩ := hinv.decodes key value h
  exact ⟨e.logId, ⟨value, e, hkey ▸ h, he, rfl⟩, hkey⟩

theorem Inv.hasIndex_iff (hinv : Inv bin db) {i : UInt64} :
    HasIndex db i ↔ ∃ id, Stored bin db id ∧ id.index = i := by
  constructor
  · intro h
    obtain ⟨value, hvalue⟩ := Option.isSome_iff_exists.mp h
    obtain ⟨id, hid, hkey⟩ := hinv.stored_of_key hvalue
    exact ⟨id, hid, (indexToKey_inj.mp hkey).symm⟩
  · rintro ⟨id, ⟨value, e, hvalue, -, -⟩, rfl⟩
    simp [HasIndex, hvalue]

/-- `last_log_id_sync` reports the entry with the largest index. -/
theorem Inv.lastLogIdSync (hinv : Inv bin db) :
    (RocksLogStore.lastLogIdSync bin db = .ok none ∧ ∀ a, ¬ Stored bin db a) ∨
      ∃ l, RocksLogStore.lastLogIdSync bin db = .ok (some l) ∧ Stored bin db l ∧
        ∀ a, Stored bin db a → a.index.toNat ≤ l.index.toNat := by
  cases hlast : (db .raftLog).toList.getLast? with
  | none =>
    left
    refine ⟨by simp [RocksLogStore.lastLogIdSync, raftLogLast, hlast, pure, Except.pure], ?_⟩
    rintro a ⟨value, e, hvalue, -, -⟩
    have hmem := (OrderedMap.mem_toList (db .raftLog)
      (e := (indexToKey a.index, value))).mpr hvalue
    rw [List.getLast?_eq_none_iff.mp hlast] at hmem
    exact List.not_mem_nil hmem
  | some last =>
    right
    obtain ⟨key, value⟩ := last
    have hvalue := (OrderedMap.mem_toList _).mp (List.mem_of_getLast? hlast)
    obtain ⟨entry, hentry, hkey⟩ := hinv.decodes key value hvalue
    refine ⟨entry.logId, ?_, ⟨value, entry, hkey ▸ hvalue, hentry, rfl⟩, ?_⟩
    · simp [RocksLogStore.lastLogIdSync, raftLogLast, hlast, hentry, Except.mapError, pure,
        Except.pure, bind, Except.bind]
    · rintro a ⟨value', e, hvalue', -, -⟩
      have hmem := (OrderedMap.mem_toList (db .raftLog)
        (e := (indexToKey a.index, value'))).mpr hvalue'
      rw [← indexToKey_le_iff, ← hkey]
      rcases List.eq_or_rel_of_getLast?_eq_some (OrderedMap.pairwise_toList _) hlast hmem with h | h
      · exact (congrArg Prod.fst h).le
      · exact le_of_lt h

theorem Inv.metaGet_lastPurgedKey (hinv : Inv bin db) :
    (metaGet bin.logId lastPurgedKey .read db = .ok none ∧ ∀ p, ¬ Purged bin db p) ∨
      ∃ p, metaGet bin.logId lastPurgedKey .read db = .ok (some p) ∧ Purged bin db p := by
  cases hvalue : (db .raftMeta)[lastPurgedKey]? with
  | none =>
    left
    refine ⟨by simp [metaGet, hvalue, pure, Except.pure], ?_⟩
    rintro p ⟨value, hvalue', -⟩
    simp [hvalue] at hvalue'
  | some value =>
    right
    obtain ⟨p, hp⟩ := hinv.marker value hvalue
    refine ⟨p, ?_, value, hvalue, hp⟩
    simp [metaGet, hvalue, hp, Except.mapError, pure, Except.pure, bind, Except.bind]

/-- What `get_log_state` reports. -/
theorem Inv.getLogState (hinv : Inv bin db) :
    ∃ st, RocksLogStore.getLogState bin db = .ok st ∧
      (∀ p, st.lastPurgedLogId = some p ↔ Purged bin db p) ∧
      (∀ l, st.lastLogId = some l →
        (Stored bin db l ∧ ∀ a, Stored bin db a → a.index.toNat ≤ l.index.toNat) ∨
          ((∀ a, ¬ Stored bin db a) ∧ Purged bin db l)) ∧
      (st.lastLogId = none → (∀ a, ¬ Stored bin db a) ∧ ∀ p, ¬ Purged bin db p) := by
  unfold RocksLogStore.getLogState
  rcases hinv.metaGet_lastPurgedKey with ⟨hmeta, hnoPurged⟩ | ⟨p, hmeta, hp⟩
  · rcases hinv.lastLogIdSync with ⟨hlast, hnoStored⟩ | ⟨l, hlast, hl, hmax⟩
    · refine ⟨⟨none, none⟩, by rw [hmeta, hlast]; rfl, ?_, ?_, fun _ => ⟨hnoStored, hnoPurged⟩⟩
      · intro p
        simp [hnoPurged p]
      · intro l hl
        cases hl
    · refine ⟨⟨none, some l⟩, by rw [hmeta, hlast]; rfl, ?_, ?_, fun h => by cases h⟩
      · intro p
        simp [hnoPurged p]
      · intro l' hl'
        cases hl'
        exact Or.inl ⟨hl, hmax⟩
  · have hpurged : ∀ p', some p = some p' ↔ Purged bin db p' := by
      intro p'
      constructor
      · intro h
        cases h
        exact hp
      · intro hp'
        rw [hp.unique hp']
    rcases hinv.lastLogIdSync with ⟨hlast, hnoStored⟩ | ⟨l, hlast, hl, hmax⟩
    · refine ⟨⟨some p, some p⟩, by rw [hmeta, hlast]; rfl, hpurged, ?_, fun h => by cases h⟩
      intro l hl
      cases hl
      exact Or.inr ⟨hnoStored, hp⟩
    · refine ⟨⟨some p, some l⟩, by rw [hmeta, hlast]; rfl, hpurged, ?_, fun h => by cases h⟩
      intro l' hl'
      cases hl'
      exact Or.inl ⟨hl, hmax⟩

/-- **The invariant makes a store sound.** -/
theorem Inv.sound (hinv : Inv bin db) : Sound bin db := by
  obtain ⟨st, hst, hpurged, hlast, hnone⟩ := hinv.getLogState
  refine ⟨st, hst, ?_, ?_⟩
  · intro a i b ha hb _ hai hib
    obtain ⟨a', ha', rfl⟩ := hinv.hasIndex_iff.mp ha
    obtain ⟨b', hb', rfl⟩ := hinv.hasIndex_iff.mp hb
    exact hinv.hasIndex_iff.mpr (hinv.interval a' b' ha' hb' i hai hib)
  · intro p hp
    have hp := (hpurged p).mp hp
    cases hlastId : st.lastLogId with
    | none => exact absurd hp ((hnone hlastId).2 p)
    | some l =>
      refine ⟨l, rfl, ?_⟩
      rcases hlast l hlastId with ⟨hl, hmax⟩ | ⟨-, hl⟩
      · obtain ⟨b, hb, hpb⟩ := hinv.reach p l hp hl
        exact hinv.above p l hp hl (hpb.trans (hmax b hb))
      · exact (hl.unique hp).ge

end Views

/-! ## One write -/

section Writes

variable {bin} {db : Db}

/-- Deleting keys of the log. -/
def deletes (keys : List Bytes) : WriteBatch := keys.map fun key => .delete .raftLog key

theorem raftLog_write_deletes (keys : List Bytes) (key : Bytes) :
    (db.write (deletes keys) .raftLog)[key]? =
      if key ∈ keys then none else (db .raftLog)[key]? := by
  have h := Db.getElem?_write_deletes db .raftLog .raftLog id keys key
  simpa [deletes] using h

theorem raftMeta_write_deletes (keys : List Bytes) :
    db.write (deletes keys) .raftMeta = db .raftMeta := by
  apply Db.write_of_forall_cf_ne
  intro op hop
  obtain ⟨key, -, rfl⟩ := List.mem_map.mp hop
  simp [WriteOp.cf]

theorem stored_write_deletes {keys : List Bytes} {id : LogId} :
    Stored bin (db.write (deletes keys)) id ↔
      Stored bin db id ∧ indexToKey id.index ∉ keys := by
  unfold Stored
  rw [raftLog_write_deletes]
  by_cases h : indexToKey id.index ∈ keys
  · simp [h]
  · simp [h]

theorem purged_write_deletes {keys : List Bytes} {id : LogId} :
    Purged bin (db.write (deletes keys)) id ↔ Purged bin db id := by
  unfold Purged
  rw [raftMeta_write_deletes]

theorem stored_put_marker {value : Bytes} {id : LogId} :
    Stored bin (db.write [.put .raftMeta lastPurgedKey value]) id ↔ Stored bin db id := by
  unfold Stored
  simp [Db.getElem?_apply, WriteOp.cf]

theorem purged_put_marker {value : Bytes} {logId id : LogId}
    (h : bin.logId.deserialize value = .ok logId) :
    Purged bin (db.write [.put .raftMeta lastPurgedKey value]) id ↔ id = logId := by
  unfold Purged
  simp only [Db.write_cons, Db.write_nil, Db.getElem?_apply, WriteOp.cf, WriteOp.key,
    WriteOp.result, and_self, if_true]
  constructor
  · rintro ⟨v, hv, hid⟩
    cases hv
    rw [h] at hid
    cases hid
    rfl
  · rintro rfl
    exact ⟨value, rfl, h⟩

theorem stored_put_entry {entry : Entry} {value : Bytes} {id : LogId}
    (h : bin.entry.deserialize value = .ok entry) :
    Stored bin (db.write [.put .raftLog (indexToKey entry.logId.index) value]) id ↔
      id = entry.logId ∨ (Stored bin db id ∧ id.index ≠ entry.logId.index) := by
  unfold Stored
  simp only [Db.write_cons, Db.write_nil, Db.getElem?_apply, WriteOp.cf, WriteOp.key,
    WriteOp.result, true_and, indexToKey_inj]
  by_cases hindex : entry.logId.index = id.index
  · rw [if_pos hindex]
    constructor
    · rintro ⟨v, e, hv, he, rfl⟩
      cases hv
      rw [h] at he
      cases he
      exact Or.inl rfl
    · rintro (rfl | ⟨-, hne⟩)
      · exact ⟨value, entry, rfl, h, rfl⟩
      · exact absurd hindex.symm hne
  · rw [if_neg hindex]
    constructor
    · intro hstored
      exact Or.inr ⟨hstored, Ne.symm hindex⟩
    · rintro (rfl | ⟨hstored, -⟩)
      · exact absurd rfl hindex
      · exact hstored

theorem purged_put_entry {key value : Bytes} {id : LogId} :
    Purged bin (db.write [.put .raftLog key value]) id ↔ Purged bin db id := by
  unfold Purged
  simp [Db.getElem?_apply, WriteOp.cf]

end Writes

/-! ## What a crash leaves -/

section Crash

variable {bin} {db : Db}

theorem writeAll_deletes (keys : List Bytes) :
    Writable.writeAll db (keys.map fun key => [WriteOp.delete .raftLog key]) =
      db.write (deletes keys) := by
  induction keys generalizing db with
  | nil => rfl
  | cons key keys ih =>
    rw [List.map_cons, Writable.writeAll_cons, ih]
    rfl

theorem deleteKeys_apply (keys : List Bytes) :
    deleteKeys keys db = ⟨.ok (), keys.map fun key => [.delete .raftLog key]⟩ :=
  Journaled.forM_write_apply _ keys db

theorem crash_deleteKeys (keys : List Bytes) (n : Nat) :
    Journaled.crash (deleteKeys keys) n db = db.write (deletes (keys.take n)) := by
  unfold Journaled.crash
  rw [deleteKeys_apply]
  simp only [← List.map_take]
  exact writeAll_deletes _

theorem crash_deleteConflictLogsSince (logId : LogId) (n : Nat) :
    Journaled.crash (deleteConflictLogsSince logId) n db =
      db.write (deletes ((keysFrom db logId.index).take n)) := by
  unfold deleteConflictLogsSince deleteLogsFromSync
  refine (Journaled.crash_read_bind (a := keysFrom db logId.index) ?_ n).trans ?_
  · rfl
  · exact crash_deleteKeys _ n

theorem keysUpto_put_marker (value : Bytes) (i : UInt64) :
    keysUpto (db.write [.put .raftMeta lastPurgedKey value]) i = keysUpto db i := by
  have hlog : db.write [.put .raftMeta lastPurgedKey value] .raftLog = db .raftLog := by
    apply Db.write_of_forall_cf_ne
    simp [WriteOp.cf]
  unfold keysUpto raftLogScanFrom
  rw [hlog]

theorem crash_purgeLogsUpto_succ {logId : LogId} {bytes : Bytes}
    (h : bin.logId.serialize logId = .ok bytes) (n : Nat) :
    Journaled.crash (purgeLogsUpto bin logId) (n + 1) db =
      (db.write [.put .raftMeta lastPurgedKey bytes]).write
        (deletes ((keysUpto db logId.index).take n)) := by
  have hser : (bin.logId.serialize logId).mapError StorageIoError.write = .ok bytes := by
    simp [h, Except.mapError]
  unfold purgeLogsUpto deleteLogsUptoSync
  refine (Journaled.crash_read_bind (a := bytes) ?_ _).trans ?_
  · exact hser
  refine (Journaled.crash_write_bind n).trans ?_
  refine (Journaled.crash_read_bind (a := keysUpto db logId.index) ?_ n).trans ?_
  · exact congrArg Except.ok (keysUpto_put_marker bytes logId.index)
  · exact crash_deleteKeys _ n

theorem crash_purgeLogsUpto_error {logId : LogId} {msg : String}
    (h : bin.logId.serialize logId = .error msg) (n : Nat) :
    Journaled.crash (purgeLogsUpto bin logId) n db = db := by
  have hser : (bin.logId.serialize logId).mapError StorageIoError.write = .error (.write msg) := by
    simp [h, Except.mapError]
  unfold purgeLogsUpto
  refine Journaled.crash_read_bind_error (e := .write msg) ?_ n
  exact hser

end Crash

/-! ## Preservation -/

section Preservation

variable {bin} {db : Db}

theorem mem_keysFrom (hinv : Inv bin db) {i : UInt64} {key : Bytes} :
    key ∈ keysFrom db i ↔
      ∃ a, Stored bin db a ∧ key = indexToKey a.index ∧ i.toNat ≤ a.index.toNat := by
  unfold keysFrom raftLogScanFrom
  rw [List.mem_map]
  constructor
  · rintro ⟨⟨key, value⟩, hmem, rfl⟩
    obtain ⟨hvalue, hle⟩ := (OrderedMap.mem_seek _).mp hmem
    obtain ⟨a, ha, rfl⟩ := hinv.stored_of_key hvalue
    exact ⟨a, ha, rfl, indexToKey_le_iff.mp hle⟩
  · rintro ⟨a, ⟨value, e, hvalue, -, -⟩, rfl, hle⟩
    exact ⟨(_, value), (OrderedMap.mem_seek _).mpr ⟨hvalue, indexToKey_le_iff.mpr hle⟩, rfl⟩

theorem pairwise_keysFrom (i : UInt64) : (keysFrom db i).Pairwise (· < ·) :=
  List.pairwise_map.mpr (OrderedMap.pairwise_seek _ _)

theorem mem_keysUpto (hinv : Inv bin db) {i : UInt64} {key : Bytes} :
    key ∈ keysUpto db i ↔
      ∃ a, Stored bin db a ∧ key = indexToKey a.index ∧
        a.index.toNat < (saturatingSucc i).toNat := by
  unfold keysUpto
  rw [List.mem_filter]
  constructor
  · rintro ⟨hmem, hlt⟩
    obtain ⟨a, ha, rfl, -⟩ := (mem_keysFrom hinv (i := 0)).mp hmem
    exact ⟨a, ha, rfl, indexToKey_lt_iff.mp (by simpa using hlt)⟩
  · rintro ⟨a, ha, rfl, hlt⟩
    refine ⟨(mem_keysFrom hinv (i := 0)).mpr ⟨a, ha, rfl, Nat.zero_le _⟩, ?_⟩
    simpa using indexToKey_lt_iff.mpr hlt

theorem pairwise_keysUpto (i : UInt64) : (keysUpto db i).Pairwise (· < ·) :=
  (pairwise_keysFrom 0).filter _

/-- Deleting keys keeps the invariant if nothing between two remaining entries is deleted and the
log still reaches up to the purged index. -/
theorem Inv.write_deletes (hinv : Inv bin db) {keys : List Bytes}
    (hinterval : ∀ a b c, Stored bin db a → Stored bin db b → Stored bin db c →
      indexToKey a.index ∉ keys → indexToKey c.index ∉ keys → a.index.toNat < b.index.toNat →
      b.index.toNat < c.index.toNat → indexToKey b.index ∉ keys)
    (hreach : ∀ p a, Purged bin db p → Stored bin db a → indexToKey a.index ∉ keys →
      ∃ b, Stored bin db b ∧ indexToKey b.index ∉ keys ∧ p.index.toNat ≤ b.index.toNat) :
    Inv bin (db.write (deletes keys)) where
  decodes key value h := by
    rw [raftLog_write_deletes] at h
    split at h
    next => cases h
    next => exact hinv.decodes key value h
  marker value h := by
    rw [raftMeta_write_deletes] at h
    exact hinv.marker value h
  interval a c ha hc i hai hic := by
    rw [stored_write_deletes] at ha hc
    obtain ⟨b, hb, rfl⟩ := hinv.interval a c ha.1 hc.1 i hai hic
    have hkey := hinterval a b c ha.1 hb hc.1 ha.2 hc.2 hai hic
    exact ⟨b, stored_write_deletes.mpr ⟨hb, hkey⟩, rfl⟩
  above p a hp ha hle := by
    rw [purged_write_deletes] at hp
    rw [stored_write_deletes] at ha
    exact hinv.above p a hp ha.1 hle
  reach p a hp ha := by
    rw [purged_write_deletes] at hp
    rw [stored_write_deletes] at ha
    obtain ⟨b, hb, hkey, hle⟩ := hreach p a hp ha.1 ha.2
    exact ⟨b, stored_write_deletes.mpr ⟨hb, hkey⟩, hle⟩

/-- Deleting from below leaves no hole. -/
theorem not_mem_of_lower {keys : List Bytes} {a b : LogId}
    (hlower : indexToKey b.index ∈ keys → indexToKey b.index < indexToKey a.index)
    (hab : a.index.toNat < b.index.toNat) : indexToKey b.index ∉ keys := by
  intro hb
  have hlt := indexToKey_lt_iff.mp (hlower hb)
  omega

/-- A conflict with nothing below it: the log is deleted from its front. -/
theorem Inv.deleteConflict_front (hinv : Inv bin db) {i : UInt64} (n : Nat)
    (hfront : ∀ b, Stored bin db b → i.toNat ≤ b.index.toNat) :
    Inv bin (db.write (deletes ((keysFrom db i).take n))) := by
  have hlower : ∀ a b, Stored bin db a → Stored bin db b →
      indexToKey a.index ∉ (keysFrom db i).take n → indexToKey b.index ∈ (keysFrom db i).take n →
      indexToKey b.index < indexToKey a.index := by
    intro a b ha _ hna hb
    have hmem := (mem_keysFrom hinv).mpr ⟨a, ha, rfl, hfront a ha⟩
    exact List.rel_of_mem_take_of_not_mem_take (pairwise_keysFrom i) hb hmem hna
  apply hinv.write_deletes
  · intro a b c ha hb _ hna _ hab _
    exact not_mem_of_lower (hlower a b ha hb hna) hab
  · intro p a hp ha hna
    obtain ⟨b, hb, hpb⟩ := hinv.reach p a hp ha
    by_cases hnb : indexToKey b.index ∈ (keysFrom db i).take n
    · have hlt := indexToKey_lt_iff.mp (hlower a b ha hb hna hnb)
      exact ⟨a, ha, hna, by omega⟩
    · exact ⟨b, hb, hnb, hpb⟩

/-- A conflict above the purged index, deleted to the end of the log. -/
theorem Inv.deleteConflict_whole (hinv : Inv bin db) {i : UInt64} {n : Nat}
    (hn : (keysFrom db i).length ≤ n) (hpurged : ∀ p, Purged bin db p → p.index.toNat < i.toNat) :
    Inv bin (db.write (deletes ((keysFrom db i).take n))) := by
  have hdeleted : ∀ {a}, Stored bin db a →
      (indexToKey a.index ∈ (keysFrom db i).take n ↔ i.toNat ≤ a.index.toNat) := by
    intro a ha
    rw [List.take_of_length_le hn, mem_keysFrom hinv]
    constructor
    · rintro ⟨a', ha', hkey, hle⟩
      rwa [indexToKey_inj.mp hkey]
    · intro hle
      exact ⟨a, ha, rfl, hle⟩
  apply hinv.write_deletes
  · intro a b c _ hb hc _ hnc _ hbc
    rw [hdeleted hb]
    rw [hdeleted hc] at hnc
    omega
  · intro p a hp ha hna
    rw [hdeleted ha] at hna
    have hpi := hpurged p hp
    by_cases hpa : p.index.toNat ≤ a.index.toNat
    · exact ⟨a, ha, by rw [hdeleted ha]; exact hna, hpa⟩
    · -- the log goes on to the purged index, which is kept
      obtain ⟨c, hc, hpc⟩ := hinv.reach p a hp ha
      by_cases heq : c.index.toNat = p.index.toNat
      · exact ⟨c, hc, by rw [hdeleted hc]; omega, hpc⟩
      · obtain ⟨b, hb, hbp⟩ := hinv.interval a c ha hc p.index (by omega) (by omega)
        exact ⟨b, hb, by rw [hdeleted hb, hbp]; omega, by rw [hbp]⟩

/-- A purge: the marker, then some of the entries up to it, from below. -/
theorem Inv.purge (hinv : Inv bin db) {logId : LogId} {bytes : Bytes}
    (hbytes : bin.logId.deserialize bytes = .ok logId)
    (habove : ∀ b, Stored bin db b → logId.index.toNat ≤ b.index.toNat → logId ≤ b) {n : Nat}
    (hreach : (keysUpto db logId.index).length ≤ n ∨
      ∃ b, Stored bin db b ∧ logId.index.toNat ≤ b.index.toNat) :
    Inv bin ((db.write [.put .raftMeta lastPurgedKey bytes]).write
      (deletes ((keysUpto db logId.index).take n))) := by
  have hlower : ∀ a b : LogId, Stored bin db a → a.index.toNat < (saturatingSucc logId.index).toNat →
      indexToKey a.index ∉ (keysUpto db logId.index).take n →
      indexToKey b.index ∈ (keysUpto db logId.index).take n →
      indexToKey b.index < indexToKey a.index := by
    intro a b ha hlt hna hb
    have hmem := (mem_keysUpto hinv).mpr ⟨a, ha, rfl, hlt⟩
    exact List.rel_of_mem_take_of_not_mem_take (pairwise_keysUpto _) hb hmem hna
  have hupto : ∀ {b : UInt64}, indexToKey b ∈ (keysUpto db logId.index).take n →
      b.toNat < (saturatingSucc logId.index).toNat := by
    intro b hb
    obtain ⟨b', -, hkey, hlt⟩ := (mem_keysUpto hinv).mp (List.mem_of_mem_take hb)
    rwa [indexToKey_inj.mp hkey]
  constructor
  case decodes =>
    intro key value h
    rw [raftLog_write_deletes] at h
    split at h
    next => cases h
    next =>
      rw [Db.write_cons, Db.write_nil, Db.getElem?_apply, if_neg (by simp [WriteOp.cf])] at h
      exact hinv.decodes key value h
  case marker =>
    intro value h
    rw [raftMeta_write_deletes, Db.write_cons, Db.write_nil, Db.getElem?_apply,
      if_pos ⟨rfl, rfl⟩] at h
    cases h
    exact ⟨logId, hbytes⟩
  case interval =>
    intro a c ha hc i hai hic
    rw [stored_write_deletes, stored_put_marker] at ha hc
    obtain ⟨b, hb, rfl⟩ := hinv.interval a c ha.1 hc.1 i hai hic
    refine ⟨b, ?_, rfl⟩
    rw [stored_write_deletes, stored_put_marker]
    refine ⟨hb, fun hmem => ?_⟩
    have hlt := hupto hmem
    exact not_mem_of_lower (hlower a b ha.1 (by omega) ha.2) hai hmem
  case above =>
    intro p a hp ha hle
    rw [purged_write_deletes, purged_put_marker hbytes] at hp
    rw [stored_write_deletes, stored_put_marker] at ha
    subst hp
    exact habove a ha.1 hle
  case reach =>
    intro p a hp ha
    rw [purged_write_deletes, purged_put_marker hbytes] at hp
    rw [stored_write_deletes, stored_put_marker] at ha
    subst hp
    simp only [stored_write_deletes, stored_put_marker]
    by_cases hlt : a.index.toNat < (saturatingSucc p.index).toNat
    · -- deletes are still to come, so the log reaches up to the marker
      rcases hreach with hn | ⟨b, hb, hpb⟩
      · rw [List.take_of_length_le hn] at ha
        exact absurd ((mem_keysUpto hinv).mpr ⟨a, ha.1, rfl, hlt⟩) ha.2
      · by_cases hnb : indexToKey b.index ∈ (keysUpto db p.index).take n
        · have hba := indexToKey_lt_iff.mp (hlower a b ha.1 hlt ha.2 hnb)
          exact ⟨a, ha, by omega⟩
        · exact ⟨b, ⟨hb, hnb⟩, hpb⟩
    · exact ⟨a, ha, le_of_saturatingSucc_le (by omega)⟩

/-- An entry behind the last one. -/
theorem Inv.put_entry (hinv : Inv bin db) {entry : Entry} {value : Bytes}
    (hvalue : bin.entry.deserialize value = .ok entry)
    (hlast : ∀ a, Stored bin db a → a.index.toNat < entry.logId.index.toNat)
    (hnext : ∀ a, Stored bin db a →
      ∃ l, Stored bin db l ∧ entry.logId.index.toNat = l.index.toNat + 1)
    (hpurged : ∀ p, Purged bin db p → p ≤ entry.logId ∧ p.index.toNat ≤ entry.logId.index.toNat) :
    Inv bin (db.write [.put .raftLog (indexToKey entry.logId.index) value]) := by
  constructor
  case decodes =>
    intro key v h
    rw [Db.write_cons, Db.write_nil, Db.getElem?_apply] at h
    split at h
    next heq =>
      cases h
      exact ⟨entry, hvalue, heq.2.symm⟩
    next => exact hinv.decodes key v h
  case marker =>
    intro v h
    rw [Db.write_cons, Db.write_nil, Db.getElem?_apply, if_neg (by simp [WriteOp.cf])] at h
    exact hinv.marker v h
  case interval =>
    intro a c ha hc i hai hic
    simp only [stored_put_entry hvalue] at ha hc ⊢
    rcases hc with rfl | ⟨hc, -⟩
    · rcases ha with rfl | ⟨ha, -⟩
      · omega
      · obtain ⟨l, hl, heq⟩ := hnext a ha
        by_cases hil : i.toNat = l.index.toNat
        · exact ⟨l, Or.inr ⟨hl, fun h => by rw [h] at heq; omega⟩, (UInt64.toNat_inj.mp hil).symm⟩
        · obtain ⟨b, hb, rfl⟩ := hinv.interval a l ha hl i hai (by omega)
          exact ⟨b, Or.inr ⟨hb, fun h => by rw [h] at hic; omega⟩, rfl⟩
    · rcases ha with rfl | ⟨ha, -⟩
      · have hlt := hlast c hc
        omega
      · obtain ⟨b, hb, rfl⟩ := hinv.interval a c ha hc i hai hic
        have hlt := hlast b hb
        exact ⟨b, Or.inr ⟨hb, fun h => by rw [h] at hlt; omega⟩, rfl⟩
  case above =>
    intro p a hp ha hle
    rw [purged_put_entry] at hp
    rw [stored_put_entry hvalue] at ha
    rcases ha with rfl | ⟨ha, -⟩
    · exact (hpurged p hp).1
    · exact hinv.above p a hp ha hle
  case reach =>
    intro p a hp ha
    rw [purged_put_entry] at hp
    exact ⟨entry.logId, (stored_put_entry hvalue).mpr (Or.inl rfl), (hpurged p hp).2⟩

/-- The last log id of a store, as far as entries that are appended see it. -/
def Last (bin : RaftBincode) (db : Db) (last : Option LogId) : Prop :=
  (∀ l, last = some l →
    (Stored bin db l ∧ ∀ a, Stored bin db a → a.index.toNat ≤ l.index.toNat) ∨
      ((∀ a, ¬ Stored bin db a) ∧ Purged bin db l)) ∧
  (last = none → (∀ a, ¬ Stored bin db a) ∧ ∀ p, ¬ Purged bin db p)

/-- Appending one entry that follows on. -/
theorem Inv.append_one (hinv : Inv bin db) {last : Option LogId} (hlast : Last bin db last)
    {entry : Entry} {value : Bytes} (hvalue : bin.entry.deserialize value = .ok entry)
    (hfollows : ∀ l, last = some l → l.leaderId ≤ entry.logId.leaderId ∧
      entry.logId.index.toNat = l.index.toNat + 1) :
    Inv bin (db.write [.put .raftLog (indexToKey entry.logId.index) value]) := by
  cases last with
  | none =>
    obtain ⟨hstored, hpurged⟩ := hlast.2 rfl
    exact hinv.put_entry hvalue (fun a ha => absurd ha (hstored a))
      (fun a ha => absurd ha (hstored a)) fun p hp => absurd hp (hpurged p)
  | some l =>
    obtain ⟨hleader, hindex⟩ := hfollows l rfl
    have hbelow : ∀ p, p ≤ l → p.index.toNat ≤ l.index.toNat →
        p ≤ entry.logId ∧ p.index.toNat ≤ entry.logId.index.toNat := by
      intro p hpl hle
      refine ⟨?_, by omega⟩
      rw [LogId.le_iff] at hpl ⊢
      rcases hpl with hlt | ⟨heq, -⟩
      · exact Or.inl (lt_of_lt_of_le hlt hleader)
      · rcases hleader.lt_or_eq with hlt | heq'
        · exact Or.inl (heq ▸ hlt)
        · exact Or.inr ⟨heq.trans heq', by omega⟩
    rcases hlast.1 l rfl with ⟨hl, hmax⟩ | ⟨hnone, hl⟩
    · apply hinv.put_entry hvalue
      · intro a ha
        have hle := hmax a ha
        omega
      · intro a _
        exact ⟨l, hl, hindex⟩
      · intro p hp
        obtain ⟨b, hb, hpb⟩ := hinv.reach p l hp hl
        have hpl := hpb.trans (hmax b hb)
        exact hbelow p (hinv.above p l hp hl hpl) hpl
    · apply hinv.put_entry hvalue
      · intro a ha
        exact absurd ha (hnone a)
      · intro a ha
        exact absurd ha (hnone a)
      · intro p hp
        rw [hp.unique hl]
        exact hbelow l le_rfl le_rfl

/-- The entry appended is the last one. -/
theorem last_append_one {last : Option LogId} (hlast : Last bin db last) {entry : Entry}
    {value : Bytes} (hvalue : bin.entry.deserialize value = .ok entry)
    (hfollows : ∀ l, last = some l → l.leaderId ≤ entry.logId.leaderId ∧
      entry.logId.index.toNat = l.index.toNat + 1) :
    Last bin (db.write [.put .raftLog (indexToKey entry.logId.index) value])
      (some entry.logId) := by
  refine ⟨?_, fun h => by cases h⟩
  intro l hl
  cases hl
  left
  refine ⟨(stored_put_entry hvalue).mpr (Or.inl rfl), ?_⟩
  intro a ha
  rcases (stored_put_entry hvalue).mp ha with rfl | ⟨ha, -⟩
  · exact le_rfl
  · cases last with
    | none => exact absurd ha ((hlast.2 rfl).1 a)
    | some l =>
      have hindex := (hfollows l rfl).2
      rcases hlast.1 l rfl with ⟨-, hmax⟩ | ⟨hnone, -⟩
      · have hle := hmax a ha
        omega
      · exact absurd ha (hnone a)

theorem appendEntry_ok {entry : Entry} {value : Bytes}
    (h : bin.entry.serialize entry = .ok value) :
    appendEntry bin entry db =
      ⟨.ok (), [[.put .raftLog (indexToKey entry.logId.index) value]]⟩ := by
  have hser : (bin.entry.serialize entry).mapError (StorageIoError.writeLogEntry entry.logId) =
      .ok value := by
    simp [h, Except.mapError]
  unfold appendEntry
  refine (Journaled.bind_ok (a := value) ?_).trans ?_
  · exact hser
  · rfl

theorem appendEntry_error {entry : Entry} {msg : String}
    (h : bin.entry.serialize entry = .error msg) :
    appendEntry bin entry db = ⟨.error (.writeLogEntry entry.logId msg), []⟩ := by
  have hser : (bin.entry.serialize entry).mapError (StorageIoError.writeLogEntry entry.logId) =
      .error (.writeLogEntry entry.logId msg) := by
    simp [h, Except.mapError]
  unfold appendEntry
  refine (Journaled.bind_error (e := .writeLogEntry entry.logId msg) ?_).trans ?_
  · exact hser
  · rfl

theorem Inv.appendToLog (hbin : bin.RoundTrips) (hinv : Inv bin db) {last : Option LogId}
    (hlast : Last bin db last) {entries : List Entry} (hfollows : FollowsOn last entries) :
    Journaled.Keeps (Inv bin) (RocksLogStore.appendToLog bin entries) db := by
  induction entries generalizing db last with
  | nil => exact Journaled.keeps_pure () hinv
  | cons entry entries ih =>
    show Journaled.Keeps (Inv bin)
      (appendEntry bin entry >>= fun _ => RocksLogStore.appendToLog bin entries) db
    cases hser : bin.entry.serialize entry with
    | error msg =>
      apply Journaled.keeps_bind
      · intro n
        simpa [Journaled.crash, appendEntry_error hser] using hinv
      · intro _ hok
        rw [appendEntry_error hser] at hok
        cases hok
    | ok value =>
      have hvalue := hbin.entry entry value hser
      have hnext := hinv.append_one hlast hvalue hfollows.1
      apply Journaled.keeps_bind
      · intro n
        rw [Journaled.crash, appendEntry_ok hser]
        cases n with
        | zero => exact hinv
        | succ n =>
          rw [List.take_succ_cons, List.take_nil]
          exact hnext
      · intro _ _
        rw [Journaled.exec, appendEntry_ok hser]
        exact ih hnext (last_append_one hlast hvalue hfollows.1) hfollows.2

end Preservation

/-- **One step.** A safe call keeps the invariant, wherever it is interrupted. -/
theorem Inv.logStep {bin : RaftBincode} {db : Db} (hbin : bin.RoundTrips) (hinv : Inv bin db)
    {c : Interrupted} (hcontiguous : c.op.Contiguous bin db) (hsafe : c.Safe bin db) :
    Inv bin (logStep bin db c) := by
  obtain ⟨op, n⟩ := c
  cases op with
  | appendToLog entries =>
    obtain ⟨st, hst, hfollows⟩ := hcontiguous
    obtain ⟨st', hst', -, hlast⟩ := hinv.getLogState
    rw [hst] at hst'
    cases hst'
    exact hinv.appendToLog hbin hlast hfollows n
  | deleteConflictLogsSince logId =>
    show Inv bin (Journaled.crash (RocksLogStore.deleteConflictLogsSince logId) n db)
    rw [crash_deleteConflictLogsSince]
    rcases hsafe with hzero | hfront | ⟨hn, hpurged⟩
    · simp only at hzero
      rw [hzero]
      exact hinv
    · exact hinv.deleteConflict_front n hfront
    · exact hinv.deleteConflict_whole hn hpurged
  | purgeLogsUpto logId =>
    show Inv bin (Journaled.crash (RocksLogStore.purgeLogsUpto bin logId) n db)
    cases hser : bin.logId.serialize logId with
    | error msg =>
      rw [crash_purgeLogsUpto_error hser]
      exact hinv
    | ok bytes =>
      rcases hsafe with hzero | ⟨habove, hreach⟩
      · simp only at hzero
        rw [hzero, Journaled.crash_zero]
        exact hinv
      · cases n with
        | zero =>
          rw [Journaled.crash_zero]
          exact hinv
        | succ n =>
          rw [crash_purgeLogsUpto_succ hser]
          exact hinv.purge (hbin.logId logId bytes hser) habove
            (hreach.imp_left Nat.lt_succ_iff.mp)

theorem inv_empty (bin : RaftBincode) : Inv bin Db.empty := by
  have hstored : ∀ a, ¬ Stored bin Db.empty a := by
    rintro a ⟨value, e, hvalue, -, -⟩
    simp [Db.empty] at hvalue
  constructor
  case decodes =>
    intro key value h
    simp [Db.empty] at h
  case marker =>
    intro value h
    simp [Db.empty] at h
  case interval =>
    intro a c ha
    exact absurd ha (hstored a)
  case above =>
    intro p a _ ha
    exact absurd ha (hstored a)
  case reach =>
    intro p a _ ha
    exact absurd ha (hstored a)

/-- **The log stays contiguous across crashes.** In every run of appends that follow on, truncations
and purges, each interrupted anywhere or not at all, whose steps are all safe, the reopened store has
no hole in its log and does not report a last log id below the purged one. -/
theorem sound_of_safe (bin : RaftBincode) (hbin : bin.RoundTrips) (calls : List Interrupted)
    (h : Run.Each (logStep bin) (fun db c => c.op.Contiguous bin db ∧ c.Safe bin db) Db.empty
      calls) :
    Sound bin (Run.exec (logStep bin) Db.empty calls) :=
  (Run.invariant (Inv bin) (fun _ _ hinv hok => hinv.logStep hbin hok.1 hok.2) (inv_empty bin)
    h).sound

/-! ## A log of three entries -/

def bincodeLogId (id : LogId) : Bytes :=
  bincodeLength id.leaderId.term.toNat ++ bincodeLength id.leaderId.nodeId.toNat ++
    bincodeLength id.index.toNat

/-- `bincode` on blank entries with the given log ids. -/
def blankBincode (ids : List LogId) : RaftBincode where
  entry := Codec.ofTable (ids.map fun id => (⟨id, .blank⟩, bincodeLogId id ++ [0, 0, 0, 0]))
  logId := Codec.ofTable (ids.map fun id => (id, bincodeLogId id))
  membership := Codec.ofTable []

/-- The log id of an index in the first term. -/
def firstTerm (index : UInt64) : LogId := ⟨⟨1, 1⟩, index⟩

def firstTermBincode : RaftBincode := blankBincode [firstTerm 1, firstTerm 2, firstTerm 3]

theorem firstTermBincode_roundTrips : firstTermBincode.RoundTrips where
  entry := Codec.ofTable_roundTrips (by decide)
  logId := Codec.ofTable_roundTrips (by decide)
  membership :=
    show (Codec.ofTable ([] : List (StoredMembership × Bytes))).RoundTrips from
      Codec.ofTable_roundTrips (by decide)

def appendThree : Interrupted :=
  ⟨.appendToLog [⟨firstTerm 1, .blank⟩, ⟨firstTerm 2, .blank⟩, ⟨firstTerm 3, .blank⟩], 3⟩

theorem appendThree_contiguous : appendThree.op.Contiguous firstTermBincode Db.empty := by
  refine ⟨⟨none, none⟩, by decide, ?_⟩
  simp [FollowsOn, firstTerm]

/-- A truncation that is not interrupted, and one of the whole log that is. -/
theorem sound_truncations :
    firstTermBincode.RoundTrips ∧
      Sound firstTermBincode
        (Run.exec (logStep firstTermBincode) Db.empty
          [appendThree, ⟨.deleteConflictLogsSince (firstTerm 3), 1⟩,
            ⟨.deleteConflictLogsSince (firstTerm 0), 1⟩]) := by
  refine ⟨firstTermBincode_roundTrips, ?_⟩
  apply sound_of_safe firstTermBincode firstTermBincode_roundTrips
  refine ⟨⟨appendThree_contiguous, trivial⟩, ⟨trivial, Or.inr (Or.inr ⟨?_, ?_⟩)⟩,
    ⟨trivial, Or.inr (Or.inl fun b _ => Nat.zero_le _)⟩, trivial⟩
  · decide
  · rintro p ⟨value, hvalue, -⟩
    have hnone : (logStep firstTermBincode Db.empty appendThree .raftMeta)[lastPurgedKey]? = none := by
      decide
    rw [hnone] at hvalue
    cases hvalue

/-- **A truncation that a crash interrupts leaves a hole.** Of the entries 1, 2 and 3 the conflict
at 2 removes the second, and the third stays. -/
theorem delete_conflict_leaves_hole :
    firstTermBincode.RoundTrips ∧
      Run.Each (logStep firstTermBincode) (fun db c => c.op.Contiguous firstTermBincode db) Db.empty
        [appendThree, ⟨.deleteConflictLogsSince (firstTerm 2), 1⟩] ∧
      ¬ Sound firstTermBincode
        (Run.exec (logStep firstTermBincode) Db.empty
          [appendThree, ⟨.deleteConflictLogsSince (firstTerm 2), 1⟩]) := by
  refine ⟨firstTermBincode_roundTrips, ⟨appendThree_contiguous, trivial, trivial⟩, ?_⟩
  rintro ⟨st, hst, hhole, -⟩
  have hstate : getLogState firstTermBincode
      (Run.exec (logStep firstTermBincode) Db.empty
        [appendThree, ⟨.deleteConflictLogsSince (firstTerm 2), 1⟩]) =
      .ok ⟨none, some (firstTerm 3)⟩ := by decide
  rw [hstate] at hst
  cases hst
  have htwo := hhole 1 2 3 (by unfold HasIndex; decide) (by unfold HasIndex; decide)
    (fun p hp => by cases hp) (by decide) (by decide)
  revert htwo
  unfold HasIndex
  decide

end Synaptica.Cluster
