import Synaptica.Cluster.LogContiguity

/-!
# The Raft log as a map

What the log store is for: a map from indices to entries, together with the last purged log id. The
completed calls act on the map as their names say (`LogOp.apply`), and what the store answers is read
off the map: the entries of a range in ascending order, and the last log id.

* `Represents` — the store holds this map.
* `Represents.step` — a completed call takes the store along with the map.
* `log_refines_map` — after any run of completed calls the answers are those of the map.
-/

namespace Synaptica.Cluster

open Storage RocksLogStore BigEndian

/-! ## The map -/

/-- A map from indices to the entries with these indices, and the last purged log id. -/
structure IndexedLog where
  entries : UInt64 → Option Entry
  indexed : ∀ i e, entries i = some e → e.logId.index = i
  purged : Option LogId

namespace IndexedLog

def empty : IndexedLog := ⟨fun _ => none, by simp, none⟩

/-- Put an entry at its index. -/
def put (L : IndexedLog) (entry : Entry) : IndexedLog where
  entries i := if i = entry.logId.index then some entry else L.entries i
  indexed := by
    intro i e h
    split at h
    · next hi =>
      cases h
      exact hi.symm
    · exact L.indexed i e h
  purged := L.purged

/-- Leave out the indices that satisfy the predicate. -/
def without (L : IndexedLog) (p : UInt64 → Prop) [DecidablePred p] : IndexedLog where
  entries i := if p i then none else L.entries i
  indexed := by
    intro i e h
    split at h
    · cases h
    · exact L.indexed i e h
  purged := L.purged

/-- The log id of the entry with the greatest index, or the last purged one if there is no entry. -/
def IsLast (L : IndexedLog) (last : Option LogId) : Prop :=
  (∃ i e, L.entries i = some e ∧ (∀ j, (L.entries j).isSome → j ≤ i) ∧ last = some e.logId) ∨
    (∀ i, L.entries i = none) ∧ last = L.purged

end IndexedLog

/-- What the calls do to the map. -/
def LogOp.apply (L : IndexedLog) : LogOp → IndexedLog
  | .appendToLog entries => entries.foldl IndexedLog.put L
  | .deleteConflictLogsSince logId => L.without (logId.index ≤ ·)
  | .purgeLogsUpto logId => { L.without (· ≤ logId.index) with purged := some logId }

/-- The indices of a call are below the greatest `u64`. -/
def LogOp.Bounded : LogOp → Prop
  | .appendToLog entries => ∀ e ∈ entries, e.logId.index.toNat < 2 ^ 64 - 1
  | .deleteConflictLogsSince logId | .purgeLogsUpto logId => logId.index.toNat < 2 ^ 64 - 1

instance (op : LogOp) : Decidable op.Bounded := by
  cases op <;> unfold LogOp.Bounded <;> infer_instance

/-- The store after a call that is not interrupted. -/
def LogOp.exec (bin : RaftBincode) (db : Db) (op : LogOp) : Db := Journaled.exec (op.call bin) db

/-- The call completes. -/
def LogOp.Completes (bin : RaftBincode) (db : Db) (op : LogOp) : Prop :=
  ((op.call bin) db).result = .ok ()

instance (bin : RaftBincode) (db : Db) (op : LogOp) : Decidable (op.Completes bin db) :=
  inferInstanceAs (Decidable (_ = _))

namespace RocksLogStore.Bound

def Bounded : Bound → Prop
  | .included i | .excluded i => i.toNat < 2 ^ 64 - 1
  | .unbounded => True

/-- The index is within the lower end. -/
def StartsBefore (i : UInt64) : Bound → Prop
  | .included s => s ≤ i
  | .excluded s => s < i
  | .unbounded => True

/-- The index is within the upper end. -/
def EndsAfter (i : UInt64) : Bound → Prop
  | .included e => i ≤ e
  | .excluded e => i < e
  | .unbounded => True

/-- The first index that is read. -/
def start : Bound → UInt64
  | .included s => s
  | .excluded s => s + 1
  | .unbounded => 0

/-- The index before which the reading stops. -/
def stop : Bound → Option UInt64
  | .included e => some (e + 1)
  | .excluded e => some e
  | .unbounded => none

theorem toNat_succ {i : UInt64} (h : i.toNat < 2 ^ 64 - 1) : (i + 1).toNat = i.toNat + 1 := by
  rw [UInt64.toNat_add]
  exact Nat.mod_eq_of_lt (by show i.toNat + 1 < _; omega)

theorem start_le_iff (b : Bound) (h : b.Bounded) {i : UInt64} : b.start ≤ i ↔ b.StartsBefore i := by
  cases b with
  | included s => rfl
  | excluded s =>
    show s + 1 ≤ i ↔ s < i
    rw [UInt64.le_iff_toNat_le, toNat_succ h, UInt64.lt_iff_toNat_lt]
    exact Nat.succ_le_iff
  | unbounded => exact iff_of_true (UInt64.le_iff_toNat_le.mpr (Nat.zero_le _)) trivial

theorem lt_stop_iff (b : Bound) (h : b.Bounded) {i : UInt64} :
    (∀ e, b.stop = some e → i < e) ↔ b.EndsAfter i := by
  cases b with
  | included e =>
    simp only [stop, Option.some.injEq, forall_eq', EndsAfter]
    rw [UInt64.lt_iff_toNat_lt, toNat_succ h, UInt64.le_iff_toNat_le]
    exact Nat.lt_succ_iff
  | excluded e => simp [stop, EndsAfter]
  | unbounded => simp [stop, EndsAfter]

end RocksLogStore.Bound

/-! ## Completed calls -/

section Completed

variable {bin : RaftBincode} {db : Db}

theorem exec_deleteKeys (keys : List Bytes) :
    Journaled.exec (deleteKeys keys) db = db.write (deletes keys) := by
  rw [Journaled.exec, deleteKeys_apply]
  exact writeAll_deletes keys

theorem exec_deleteConflictLogsSince (logId : LogId) :
    Journaled.exec (deleteConflictLogsSince logId) db =
      db.write (deletes (keysFrom db logId.index)) := by
  unfold deleteConflictLogsSince deleteLogsFromSync
  refine (Journaled.exec_bind_ok (a := keysFrom db logId.index) ?_).trans ?_
  · rfl
  · exact exec_deleteKeys _

theorem exec_purgeLogsUpto {logId : LogId} {bytes : Bytes}
    (h : bin.logId.serialize logId = .ok bytes) :
    Journaled.exec (purgeLogsUpto bin logId) db =
      (db.write [.put .raftMeta lastPurgedKey bytes]).write
        (deletes (keysUpto db logId.index)) := by
  have hser : (bin.logId.serialize logId).mapError StorageIoError.write = .ok bytes := by
    simp [h, Except.mapError]
  unfold purgeLogsUpto deleteLogsUptoSync
  refine (Journaled.exec_bind_ok (a := bytes) ?_).trans ?_
  · exact hser
  refine (Journaled.exec_bind_ok (a := ()) ?_).trans ?_
  · rfl
  refine (Journaled.exec_bind_ok (a := keysUpto db logId.index) ?_).trans ?_
  · exact congrArg Except.ok (keysUpto_put_marker bytes logId.index)
  · exact exec_deleteKeys _

theorem result_purgeLogsUpto_error {logId : LogId} {msg : String}
    (h : bin.logId.serialize logId = .error msg) :
    (purgeLogsUpto bin logId db).result = .error (.write msg) := by
  have hser : (bin.logId.serialize logId).mapError StorageIoError.write = .error (.write msg) := by
    simp [h, Except.mapError]
  unfold purgeLogsUpto
  apply Journaled.result_bind_error
  exact hser

end Completed

/-! ## The store holds the map -/

/-- Every value of the log is an entry of the map under the key of its index, every entry of the map is
stored, and the marker is the last purged log id. -/
structure Represents (bin : RaftBincode) (db : Db) (L : IndexedLog) : Prop where
  decodes : ∀ key value, (db .raftLog)[key]? = some value →
    ∃ e, bin.entry.deserialize value = .ok e ∧ key = indexToKey e.logId.index ∧
      L.entries e.logId.index = some e
  stored : ∀ i e, L.entries i = some e → ((db .raftLog)[indexToKey i]?).isSome
  purged : metaGet bin.logId lastPurgedKey .read db = .ok L.purged

namespace Represents

variable {bin : RaftBincode} {db : Db} {L : IndexedLog}

theorem empty (bin : RaftBincode) : Represents bin Db.empty .empty where
  decodes := by
    intro key value h
    cases h
  stored := by
    intro i e h
    cases h
  purged := rfl

/-- What is stored at an index is the entry of the map. -/
theorem exists_value (h : Represents bin db L) {i : UInt64} {e : Entry} (he : L.entries i = some e) :
    ∃ value, (db .raftLog)[indexToKey i]? = some value ∧ bin.entry.deserialize value = .ok e := by
  obtain ⟨value, hvalue⟩ := Option.isSome_iff_exists.mp (h.stored i e he)
  obtain ⟨e', hdecode, hkey, he'⟩ := h.decodes _ value hvalue
  rw [← indexToKey_inj.mp hkey, he] at he'
  cases he'
  exact ⟨value, hvalue, hdecode⟩

/-! ### Calls -/

theorem put (h : Represents bin db L) (hbin : bin.RoundTrips) {entry : Entry} {value : Bytes}
    (hvalue : bin.entry.serialize entry = .ok value) :
    Represents bin (db.write [.put .raftLog (indexToKey entry.logId.index) value]) (L.put entry) := by
  have hlog : ∀ key, (db.write [.put .raftLog (indexToKey entry.logId.index) value] .raftLog)[key]? =
      if key = indexToKey entry.logId.index then some value else (db .raftLog)[key]? := by
    intro key
    simp [Db.write, Db.getElem?_apply, WriteOp.cf, WriteOp.key, WriteOp.result, eq_comm]
  have hmeta : db.write [.put .raftLog (indexToKey entry.logId.index) value] .raftMeta =
      db .raftMeta := by
    apply Db.write_of_forall_cf_ne
    simp [WriteOp.cf]
  constructor
  · intro key value' hget
    rw [hlog] at hget
    split at hget
    · next hkey =>
      cases hget
      exact ⟨entry, hbin.entry entry value hvalue, hkey, if_pos rfl⟩
    · next hkey =>
      obtain ⟨e, hdecode, hkey', he⟩ := h.decodes key value' hget
      refine ⟨e, hdecode, hkey', ?_⟩
      have hne : e.logId.index ≠ entry.logId.index := fun heq => hkey (by rw [hkey', heq])
      exact (if_neg hne).trans he
  · intro i e he
    rw [hlog]
    split
    · rfl
    · next hkey =>
      have hne : i ≠ entry.logId.index := fun heq => hkey (by rw [heq])
      exact h.stored i e ((if_neg hne).symm.trans he)
  · show metaGet bin.logId lastPurgedKey .read _ = .ok L.purged
    rw [← h.purged, metaGet, metaGet, hmeta]

/-- Deleting the keys of some indices leaves these indices out. -/
theorem write_deletes (h : Represents bin db L) {keys : List Bytes} {p : UInt64 → Prop} [DecidablePred p]
    (hkeys : ∀ i, (L.entries i).isSome → (indexToKey i ∈ keys ↔ p i)) :
    Represents bin (db.write (deletes keys)) (L.without p) where
  decodes := by
    intro key value hget
    rw [raftLog_write_deletes] at hget
    split at hget
    · cases hget
    · next hkey =>
      obtain ⟨e, hdecode, rfl, he⟩ := h.decodes key value hget
      have hp : ¬ p e.logId.index := fun hp => hkey ((hkeys _ (by rw [he]; rfl)).mpr hp)
      exact ⟨e, hdecode, rfl, (if_neg hp).trans he⟩
  stored := by
    intro i e he
    have hnot : ¬ p i := fun hp => by simp [IndexedLog.without, hp] at he
    have he : L.entries i = some e := (if_neg hnot).symm.trans he
    have hkey : indexToKey i ∉ keys := fun hkey => hnot ((hkeys i (by rw [he]; rfl)).mp hkey)
    rw [raftLog_write_deletes, if_neg hkey]
    exact h.stored i e he
  purged := by
    rw [metaGet, raftMeta_write_deletes]
    exact h.purged

theorem mem_keysFrom (h : Represents bin db L) {i j : UInt64} (hj : (L.entries j).isSome) :
    indexToKey j ∈ keysFrom db i ↔ i ≤ j := by
  obtain ⟨e, he⟩ := Option.isSome_iff_exists.mp hj
  obtain ⟨value, hvalue, -⟩ := h.exists_value he
  rw [UInt64.le_iff_toNat_le, ← indexToKey_le_iff, keysFrom, raftLogScanFrom, List.mem_map]
  constructor
  · rintro ⟨⟨key, value'⟩, hmem, rfl⟩
    exact ((OrderedMap.mem_seek _).mp hmem).2
  · exact fun hle => ⟨(_, value), (OrderedMap.mem_seek _).mpr ⟨hvalue, hle⟩, rfl⟩

theorem mem_keysUpto (h : Represents bin db L) {i j : UInt64} (hi : i.toNat < 2 ^ 64 - 1)
    (hj : (L.entries j).isSome) : indexToKey j ∈ keysUpto db i ↔ j ≤ i := by
  have hsucc : (saturatingSucc i).toNat = i.toNat + 1 := by
    rw [saturatingSucc, if_pos (by omega), Bound.toNat_succ hi]
  have hstart : indexToKey j ∈ (raftLogScanFrom db (indexToKey 0)).map Prod.fst :=
    (h.mem_keysFrom (i := 0) hj).mpr (UInt64.le_iff_toNat_le.mpr (Nat.zero_le _))
  rw [keysUpto, List.mem_filter, decide_eq_true_eq, indexToKey_lt_iff, hsucc, UInt64.le_iff_toNat_le,
    Nat.lt_succ_iff]
  exact and_iff_right hstart

theorem put_marker (h : Represents bin db L) (hbin : bin.RoundTrips) {logId : LogId} {bytes : Bytes}
    (hbytes : bin.logId.serialize logId = .ok bytes) :
    Represents bin (db.write [.put .raftMeta lastPurgedKey bytes]) { L with purged := some logId } := by
  have hlog : db.write [.put .raftMeta lastPurgedKey bytes] .raftLog = db .raftLog := by
    apply Db.write_of_forall_cf_ne
    simp [WriteOp.cf]
  have hget : (db.write [.put .raftMeta lastPurgedKey bytes] .raftMeta)[lastPurgedKey]? = some bytes := by
    simp [Db.write, Db.getElem?_apply, WriteOp.cf, WriteOp.key, WriteOp.result]
  constructor
  · intro key value hvalue
    rw [hlog] at hvalue
    exact h.decodes key value hvalue
  · intro i e he
    rw [hlog]
    exact h.stored i e he
  · rw [metaGet, hget]
    simp [hbin.logId logId bytes hbytes, Except.mapError, bind, Except.bind, pure, Except.pure]

theorem appendToLog (hbin : bin.RoundTrips) (h : Represents bin db L) {entries : List Entry}
    (hdone : (RocksLogStore.appendToLog bin entries db).result = .ok ()) :
    Represents bin (Journaled.exec (RocksLogStore.appendToLog bin entries) db)
      (entries.foldl IndexedLog.put L) := by
  induction entries generalizing db L with
  | nil => exact h
  | cons entry entries ih =>
    show Represents bin (Journaled.exec (appendEntry bin entry >>= fun _ =>
      RocksLogStore.appendToLog bin entries) db) _
    have hdone : ((appendEntry bin entry >>= fun _ => RocksLogStore.appendToLog bin entries) db).result =
        .ok () := hdone
    cases hvalue : bin.entry.serialize entry with
    | error msg =>
      have hfail : ((appendEntry bin entry) db).result = .error (.writeLogEntry entry.logId msg) := by
        rw [appendEntry_error hvalue]
      rw [Journaled.result_bind_error hfail] at hdone
      cases hdone
    | ok value =>
      have hok : ((appendEntry bin entry) db).result = .ok () := by
        rw [appendEntry_ok hvalue]
      have hput : Journaled.exec (appendEntry bin entry) db =
          db.write [.put .raftLog (indexToKey entry.logId.index) value] := by
        rw [Journaled.exec, appendEntry_ok hvalue]
        rfl
      rw [Journaled.result_bind_ok hok] at hdone
      rw [Journaled.exec_bind_ok hok, List.foldl_cons]
      rw [hput] at hdone ⊢
      exact ih (h.put hbin hvalue) hdone

theorem deleteConflictLogsSince (h : Represents bin db L) (logId : LogId) :
    Represents bin (Journaled.exec (RocksLogStore.deleteConflictLogsSince logId) db)
      (L.without (logId.index ≤ ·)) := by
  rw [exec_deleteConflictLogsSince]
  apply h.write_deletes
  intro i hi
  exact h.mem_keysFrom hi

theorem purgeLogsUpto (hbin : bin.RoundTrips) (h : Represents bin db L) {logId : LogId}
    (hbound : logId.index.toNat < 2 ^ 64 - 1)
    (hdone : (RocksLogStore.purgeLogsUpto bin logId db).result = .ok ()) :
    Represents bin (Journaled.exec (RocksLogStore.purgeLogsUpto bin logId) db)
      { L.without (· ≤ logId.index) with purged := some logId } := by
  cases hbytes : bin.logId.serialize logId with
  | error msg =>
    rw [result_purgeLogsUpto_error hbytes] at hdone
    cases hdone
  | ok bytes =>
    rw [exec_purgeLogsUpto hbytes]
    -- The marker leaves the log as it is.
    have hmarked := h.put_marker hbin hbytes
    apply hmarked.write_deletes
    intro i hi
    exact h.mem_keysUpto hbound hi

/-- **A completed call takes the store along with the map.** -/
theorem step (hbin : bin.RoundTrips) (h : Represents bin db L) {op : LogOp} (hbound : op.Bounded)
    (hdone : op.Completes bin db) : Represents bin (op.exec bin db) (op.apply L) := by
  cases op with
  | appendToLog entries => exact h.appendToLog hbin hdone
  | deleteConflictLogsSince logId => exact h.deleteConflictLogsSince logId
  | purgeLogsUpto logId => exact h.purgeLogsUpto hbin hbound hdone

/-! ### Answers -/

/-- The loop over sorted pairs returns the entries below the end. -/
theorem readEntries (stop : Option UInt64) {scanned : List (Bytes × Bytes)}
    (hdecodes : ∀ p ∈ scanned, ∃ e, bin.entry.deserialize p.2 = .ok e ∧
      p.1 = indexToKey e.logId.index ∧ L.entries e.logId.index = some e)
    (hsorted : scanned.Pairwise (fun p q => p.1 < q.1)) :
    ∃ es, RocksLogStore.readEntries bin stop scanned = .ok es ∧
      es.Pairwise (fun a b => a.logId.index < b.logId.index) ∧
      ∀ e, e ∈ es ↔ L.entries e.logId.index = some e ∧
        indexToKey e.logId.index ∈ scanned.map Prod.fst ∧ ∀ b, stop = some b → e.logId.index < b := by
  induction scanned with
  | nil =>
    refine ⟨[], rfl, .nil, ?_⟩
    simp
  | cons p scanned ih =>
    obtain ⟨key, value⟩ := p
    obtain ⟨e, hdecode, hkey, he⟩ := hdecodes (key, value) List.mem_cons_self
    simp only at hkey
    subst hkey
    obtain ⟨hfirst, hrest⟩ := List.pairwise_cons.mp hsorted
    have hlength : (indexToKey e.logId.index).length = 8 := length_beBytes _ _
    have hvalue : UInt64.ofNat (beValue (indexToKey e.logId.index)) = e.logId.index := by
      rw [indexToKey, beValue_beBytes (by simpa using e.logId.index.toNat_lt), UInt64.ofNat_toNat]
    -- What is scanned later has a greater index.
    have hlater : ∀ i : UInt64, indexToKey i ∈ scanned.map Prod.fst → e.logId.index < i := by
      intro i hi
      obtain ⟨q, hq, hqi⟩ := List.mem_map.mp hi
      have hlt := hfirst q hq
      rw [hqi, indexToKey_lt_iff] at hlt
      exact UInt64.lt_iff_toNat_lt.mpr hlt
    rw [RocksLogStore.readEntries, if_neg (not_not.mpr hlength), hvalue]
    split
    · next hstop =>
      obtain ⟨b, rfl, hb⟩ := (Option.any_eq_true _ _).mp hstop
      have hb : b ≤ e.logId.index := of_decide_eq_true hb
      refine ⟨[], rfl, .nil, ?_⟩
      intro a
      apply iff_of_false List.not_mem_nil
      rintro ⟨-, hmem, hend⟩
      have hlt : a.logId.index < e.logId.index := UInt64.lt_of_lt_of_le (hend b rfl) hb
      rcases List.mem_cons.mp hmem with heq | hmem
      · exact UInt64.ne_of_lt hlt (indexToKey_inj.mp heq)
      · exact UInt64.lt_asymm hlt (hlater _ hmem)
    · next hgo =>
      obtain ⟨es, hes, hascending, hmem⟩ := ih (fun q hq => hdecodes q (List.mem_cons_of_mem _ hq)) hrest
      refine ⟨e :: es, ?_, ?_, ?_⟩
      · rw [hdecode, hes]
        rfl
      · apply List.pairwise_cons.mpr
        refine ⟨?_, hascending⟩
        intro a ha
        exact hlater _ ((hmem a).mp ha).2.1
      · intro a
        have hend : ∀ b, stop = some b → e.logId.index < b := by
          intro b hb
          rw [hb, Option.any_some, decide_eq_true_eq] at hgo
          exact UInt64.not_le.mp hgo
        rw [List.mem_cons, hmem, List.map_cons, List.mem_cons, indexToKey_inj]
        constructor
        · rintro (rfl | ⟨ha, hscanned, hbelow⟩)
          · exact ⟨he, .inl rfl, hend⟩
          · exact ⟨ha, .inr hscanned, hbelow⟩
        · rintro ⟨ha, heq | hscanned, hbelow⟩
          · left
            rw [heq, he] at ha
            exact (Option.some.inj ha).symm
          · exact .inr ⟨ha, hscanned, hbelow⟩

theorem readLogEntriesSync (h : Represents bin db L) (start : UInt64) (stop : Option UInt64) :
    ∃ es, RocksLogStore.readLogEntriesSync bin start stop db = .ok es ∧
      es.Pairwise (fun a b => a.logId.index < b.logId.index) ∧
      ∀ e, e ∈ es ↔ L.entries e.logId.index = some e ∧ start ≤ e.logId.index ∧
        ∀ b, stop = some b → e.logId.index < b := by
  have hdecodes : ∀ p ∈ raftLogScanFrom db (indexToKey start), ∃ e,
      bin.entry.deserialize p.2 = .ok e ∧ p.1 = indexToKey e.logId.index ∧
        L.entries e.logId.index = some e :=
    fun p hp => h.decodes p.1 p.2 ((OrderedMap.mem_seek _).mp hp).1
  obtain ⟨es, hes, hascending, hmem⟩ :=
    readEntries stop hdecodes (OrderedMap.pairwise_seek _ _)
  refine ⟨es, hes, hascending, ?_⟩
  intro e
  rw [hmem]
  apply and_congr_right
  intro he
  have hkey := h.mem_keysFrom (i := start) (j := e.logId.index) (by rw [he]; rfl)
  exact and_congr_left fun _ => hkey

/-- **The entries of a range, in ascending order.** -/
theorem tryGetLogEntries (h : Represents bin db L) {lower upper : Bound} (hlower : lower.Bounded)
    (hupper : upper.Bounded) :
    ∃ es, RocksLogStore.tryGetLogEntries bin lower upper db = .ok es ∧
      es.Pairwise (fun a b => a.logId.index < b.logId.index) ∧
      ∀ e, e ∈ es ↔ ∃ i, L.entries i = some e ∧ lower.StartsBefore i ∧ upper.EndsAfter i := by
  obtain ⟨es, hes, hascending, hmem⟩ := h.readLogEntriesSync lower.start upper.stop
  refine ⟨es, hes, hascending, ?_⟩
  intro e
  rw [hmem, lower.start_le_iff hlower, upper.lt_stop_iff hupper]
  constructor
  · rintro ⟨he, hends⟩
    exact ⟨_, he, hends⟩
  · rintro ⟨i, he, hends⟩
    cases L.indexed i e he
    exact ⟨he, hends⟩

theorem lastLogIdSync (h : Represents bin db L) :
    ∃ last, RocksLogStore.lastLogIdSync bin db = .ok last ∧
      (last = none ∧ (∀ i, L.entries i = none) ∨
        ∃ i e, L.entries i = some e ∧ (∀ j, (L.entries j).isSome → j ≤ i) ∧ last = some e.logId) := by
  unfold RocksLogStore.lastLogIdSync raftLogLast
  cases hlast : (db .raftLog).toList.getLast? with
  | none =>
    refine ⟨none, rfl, .inl ⟨rfl, ?_⟩⟩
    intro i
    by_contra hsome
    obtain ⟨e, he⟩ := Option.ne_none_iff_exists'.mp hsome
    obtain ⟨value, hvalue, -⟩ := h.exists_value he
    have hmem := (OrderedMap.mem_toList (db .raftLog) (e := (indexToKey i, value))).mpr hvalue
    rw [List.getLast?_eq_none_iff.mp hlast] at hmem
    exact List.not_mem_nil hmem
  | some last =>
    obtain ⟨key, value⟩ := last
    have hvalue := (OrderedMap.mem_toList _).mp (List.mem_of_getLast? hlast)
    obtain ⟨entry, hentry, hkey, he⟩ := h.decodes key value hvalue
    refine ⟨some entry.logId, ?_, .inr ⟨_, entry, he, ?_, rfl⟩⟩
    · simp only [Option.map_some, hentry]
      rfl
    · intro j hj
      obtain ⟨e', he'⟩ := Option.isSome_iff_exists.mp hj
      obtain ⟨value', hvalue', -⟩ := h.exists_value he'
      have hmem := (OrderedMap.mem_toList (db .raftLog) (e := (indexToKey j, value'))).mpr hvalue'
      rw [UInt64.le_iff_toNat_le, ← indexToKey_le_iff, ← hkey]
      rcases List.eq_or_rel_of_getLast?_eq_some (OrderedMap.pairwise_toList _) hlast hmem with heq | hlt
      · exact (congrArg Prod.fst heq).le
      · exact le_of_lt hlt

/-- **The last purged log id and the last log id.** -/
theorem getLogState (h : Represents bin db L) :
    ∃ st, RocksLogStore.getLogState bin db = .ok st ∧ st.lastPurgedLogId = L.purged ∧
      L.IsLast st.lastLogId := by
  obtain ⟨last, hlast, hspec⟩ := h.lastLogIdSync
  refine ⟨⟨L.purged, last <|> L.purged⟩, ?_, rfl, ?_⟩
  · unfold RocksLogStore.getLogState
    rw [h.purged, hlast]
    rfl
  · rcases hspec with ⟨rfl, hnone⟩ | ⟨i, e, he, hgreatest, rfl⟩
    · exact .inr ⟨hnone, rfl⟩
    · exact .inl ⟨i, e, he, hgreatest, rfl⟩

end Represents

/-! ## Runs -/

/-- The store and the map, side by side. -/
theorem represents_run {bin : RaftBincode} (hbin : bin.RoundTrips) {ops : List LogOp} {db : Db}
    {L : IndexedLog} (h : Represents bin db L) (hbound : ∀ op ∈ ops, op.Bounded)
    (hdone : Run.Each (LogOp.exec bin) (fun db op => op.Completes bin db) db ops) :
    Represents bin (Run.exec (LogOp.exec bin) db ops) (ops.foldl LogOp.apply L) := by
  induction ops generalizing db L with
  | nil => exact h
  | cons op ops ih =>
    have hfirst := h.step hbin (hbound op List.mem_cons_self) hdone.1
    exact ih hfirst (fun op' hop' => hbound op' (List.mem_cons_of_mem _ hop')) hdone.2

/-- **The log store refines a map from indices to entries with the last purged log id.** After any run
of completed calls the entries of a range are those of the map, in ascending order, and the log state
is that of the map. -/
theorem log_refines_map (bin : RaftBincode) (hbin : bin.RoundTrips) (ops : List LogOp)
    (hbound : ∀ op ∈ ops, op.Bounded)
    (hdone : Run.Each (LogOp.exec bin) (fun db op => op.Completes bin db) Db.empty ops) :
    (∀ lower upper : Bound, lower.Bounded → upper.Bounded →
      ∃ es, tryGetLogEntries bin lower upper (Run.exec (LogOp.exec bin) Db.empty ops) = .ok es ∧
        es.Pairwise (fun a b => a.logId.index < b.logId.index) ∧
        ∀ e, e ∈ es ↔ ∃ i, (ops.foldl LogOp.apply .empty).entries i = some e ∧
          lower.StartsBefore i ∧ upper.EndsAfter i) ∧
      ∃ st, getLogState bin (Run.exec (LogOp.exec bin) Db.empty ops) = .ok st ∧
        st.lastPurgedLogId = (ops.foldl LogOp.apply .empty).purged ∧
        (ops.foldl LogOp.apply .empty).IsLast st.lastLogId := by
  have h := represents_run hbin (.empty bin) hbound hdone
  refine ⟨?_, h.getLogState⟩
  intro lower upper hlower hupper
  exact h.tryGetLogEntries hlower hupper

def mapOps : List LogOp :=
  [appendThree.op, .purgeLogsUpto (firstTerm 1), .deleteConflictLogsSince (firstTerm 3)]

theorem log_refines_map_truncations :
    (∀ lower upper : Bound, lower.Bounded → upper.Bounded →
      ∃ es, tryGetLogEntries firstTermBincode lower upper
          (Run.exec (LogOp.exec firstTermBincode) Db.empty mapOps) = .ok es ∧
        es.Pairwise (fun a b => a.logId.index < b.logId.index) ∧
        ∀ e, e ∈ es ↔ ∃ i, (mapOps.foldl LogOp.apply .empty).entries i = some e ∧
          lower.StartsBefore i ∧ upper.EndsAfter i) ∧
      ∃ st, getLogState firstTermBincode
          (Run.exec (LogOp.exec firstTermBincode) Db.empty mapOps) = .ok st ∧
        st.lastPurgedLogId = (mapOps.foldl LogOp.apply .empty).purged ∧
        (mapOps.foldl LogOp.apply .empty).IsLast st.lastLogId := by
  apply log_refines_map firstTermBincode firstTermBincode_roundTrips mapOps
  · decide
  · decide

end Synaptica.Cluster
