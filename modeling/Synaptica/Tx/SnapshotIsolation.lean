import Synaptica.Lib.Isolation
import Synaptica.Storage.MvccFrame
import Synaptica.Tx.Steps

/-!
# Sessions refine snapshot isolation

What the timestamps are for: a session answers reads as the ideal store of `Isolation` does, driven
by the same events. The ideal store is fed the operations that took effect, in order (`ideal`), and
`Refines` ties the two together: below each open snapshot, and just below the counter, the stored
versions of every key spell out the state the ideal store has copied or committed.

* `Refines.step` — every operation preserves the tie.
* `get_eq_ideal_read` — in every state of every run, an active transaction reads what the ideal
  store says, and goes on reading it until it writes itself.
* `get_after_wraparound` — unless the run is long enough to exhaust the 64-bit timestamps.

Point reads are only right for keys that do not extend one another, so the keys of the run are
drawn from a prefix-free set.
-/

namespace Synaptica.Tx

open Storage TransactionManager Versioned

/-! ## The ideal store of a session -/

/-- What an operation asks of the ideal store. -/
def Op.event : Op → Option (Isolation.Event (String × Bytes) Bytes)
  | .begin => some .begin
  | .get _ _ _ => none
  | .put i cfName key value => some (.write i (cfName, key) (some value))
  | .delete i cfName key => some (.write i (cfName, key) none)
  | .commit i => some (.commit i)
  | .rollback i => some (.rollback i)

/-- What an operation did: what it asked for, if the response reports success. -/
def event (e : Op × Response) : Option (Isolation.Event (String × Bytes) Bytes) :=
  if e.2.effective then e.1.event else none

theorem event_begin : event (.begin, .began) = some .begin := rfl

theorem event_commit (i : Nat) (c : UInt64) :
    event (.commit i, .committed (.ok c)) = some (.commit i) := rfl

theorem event_rollback (i : Nat) : event (.rollback i, .done (.ok ())) = some (.rollback i) := rfl

namespace Session

/-- The ideal store after the events of the session. -/
def ideal (s : Session) : Isolation.State (String × Bytes) Bytes :=
  Isolation.State.init.run (s.history.reverse.filterMap event)

/-! ## The keys of a run -/

/-- Keys that may be used together: none extends another in its column family, and none collides
with the oracle's record. -/
structure PrefixFree (K : String → Bytes → Prop) : Prop where
  eq_of_prefix : ∀ cfName k k', K cfName k → K cfName k' → k <+: k' → k = k'
  not_record : ∀ k, K ColumnFamily.default.name k → ¬ k <+: TimestampOracle.tsOracleKey

end Session

/-- The operation uses keys of `K` only, and writes no empty value. -/
def Op.Uses (K : String → Bytes → Prop) : Op → Prop
  | .get _ cfName key => K cfName key
  | .put _ cfName key value => K cfName key ∧ value ≠ []
  | .delete _ cfName key => K cfName key
  | _ => True

namespace Session

/-! ## The refinement -/

/-- The entries of the store: versions of usable keys below the counter, and the oracle's record. -/
def Stored (K : String → Bytes → Prop) (s : Session) : Prop :=
  ∀ (c : ColumnFamily) (b : Bytes), ((s.manager.db c)[b]?).isSome →
    (∃ k t, K c.name k ∧ b = encodeVersionedKey k t ∧ t < s.manager.oracle.counter) ∨
      (c = .default ∧ b = TimestampOracle.tsOracleKey)

/-- At time `t`, the stored versions spell out `state`. -/
def Shows (K : String → Bytes → Prop) (db : Db) (t : UInt64)
    (state : String × Bytes → Option Bytes) : Prop :=
  ∀ (c : ColumnFamily) (k : Bytes), K c.name k →
    ∃ r, ReadsAt (TableVersions (db c) k) t r ∧ state (c.name, k) = r.join

/-- A transaction and its ideal counterpart. -/
structure TxRefines (K : String → Bytes → Prop) (db : Db) (tx : Transaction)
    (t : Isolation.Tx (String × Bytes) Bytes) : Prop where
  writes : t.writes = tx.writeSet.map fun w => ((w.cfName, w.key), w.value)
  uses : ∀ w ∈ tx.writeSet, K w.cfName w.key ∧ w.value ≠ some []
  snapshot : tx.state = .active → Shows K db tx.snapshotTs t.snapshot

structure Refines (K : String → Bytes → Prop) (s : Session) : Prop where
  clocked : s.Clocked
  stored : s.Stored K
  committed : Shows K s.manager.db (s.manager.oracle.counter - 1) s.ideal.committed
  length : s.txs.length = s.ideal.txs.length
  txs : ∀ (i : Nat) (tx : Transaction), s.txs[i]? = some tx →
    ∃ t, s.ideal.txs[i]? = some t ∧ TxRefines K s.manager.db tx t

variable {K : String → Bytes → Prop}

/-! ## Spelling out states -/

/-- Moving on in time past which nothing was written. -/
theorem Shows.extend {db : Db} {t t' : UInt64} {state : String × Bytes → Option Bytes}
    (h : Shows K db t state) (hle : t ≤ t')
    (hgap : ∀ c k, K c.name k → ∀ u, t < u → u ≤ t' → TableVersions (db c) k u = none) :
    Shows K db t' state := by
  intro c k hk
  obtain ⟨r, hr, hstate⟩ := h c k hk
  exact ⟨r, hr.extend hle (hgap c k hk), hstate⟩

/-- Writes above `t` do not show at `t`. -/
theorem Shows.congr {db db' : Db} {t : UInt64} {state : String × Bytes → Option Bytes}
    (h : Shows K db t state)
    (hdb : ∀ c k, K c.name k → ∀ u ≤ t, TableVersions (db c) k u = TableVersions (db' c) k u) :
    Shows K db' t state := by
  intro c k hk
  obtain ⟨r, hr, hstate⟩ := h c k hk
  exact ⟨r, hr.congr_of_le (hdb c k hk), hstate⟩

/-- Versions of usable keys are below the counter. -/
theorem Stored.lt_counter {s : Session} (h : s.Stored K) (hK : PrefixFree K) {c : ColumnFamily}
    {k : Bytes} (hk : K c.name k) {t : UInt64} (ht : (TableVersions (s.manager.db c) k t).isSome) :
    t < s.manager.oracle.counter := by
  rcases h c _ (by simpa [TableVersions] using ht) with ⟨k', t', -, heq, hlt⟩ | ⟨rfl, heq⟩
  · rw [(encodeVersionedKey_inj.mp heq).2]
    exact hlt
  · exact absurd (heq ▸ prefix_encodeVersionedKey k t) (hK.not_record k hk)

theorem add_one_sub_one (c : UInt64) : c + 1 - 1 = c := by
  rw [UInt64.add_sub_cancel]

/-- What shows just below the counter still does after it has moved. -/
theorem Shows.tick {s : Session} (hclock : s.Clocked) (hstored : s.Stored K) (hK : PrefixFree K)
    {state : String × Bytes → Option Bytes}
    (h : Shows K s.manager.db (s.manager.oracle.counter - 1) state) :
    Shows K s.manager.db s.manager.oracle.counter state := by
  have hpred := toNat_pred hclock.pos
  refine h.extend ?_ fun c k hk u hlo hhi => ?_
  · rw [UInt64.le_iff_toNat_le]
    omega
  · by_contra hne
    have hlt := hstored.lt_counter hK hk (Option.isSome_iff_ne_none.mpr hne)
    rw [UInt64.lt_iff_toNat_lt] at hlo hlt
    omega

/-! ## The ideal store moves along -/

theorem ideal_respond (s : Session) (manager : TransactionManager) (txs : List Transaction)
    (op : Op) (r : Response) :
    (respond { s with manager, txs } op r).ideal = (event (op, r)).elim s.ideal s.ideal.step := by
  unfold ideal respond
  rw [List.reverse_cons, List.filterMap_append, Isolation.State.run, Run.exec_append]
  cases hev : event (op, r) <;> simp [hev, Isolation.State.run]

/-- Operations that changed nothing are not events. -/
theorem event_of_not_effective {op : Op} {r : Response} (h : r.effective = false) :
    event (op, r) = none := by
  simp [event, h]

/-- The last write of a key, in both worlds. -/
theorem lastWrite_map (tx : Transaction) (cfName : String) (k : Bytes) :
    Isolation.lastWrite (tx.writeSet.map fun w => ((w.cfName, w.key), w.value)) (cfName, k) =
      (tx.ownWrite cfName k).map BufferedWrite.value := by
  rw [Isolation.lastWrite, ← List.map_reverse, List.find?_map, Transaction.ownWrite]
  simp [Function.comp_def]

/-! ## What a commit writes -/

/-- The store operation of a buffered write. -/
def versionOp (ts : UInt64) (w : BufferedWrite) : WriteOp :=
  .put ((cfHandle w.cfName).getD .default) (encodeVersionedKey w.key ts) (w.value.getD tombstone)

/-- A commit's batch, write by write. -/
theorem versionedBatch_eq_map {tx : Transaction} {ts : UInt64} {batch : WriteBatch}
    (hbatch : MvccStore.versionedBatch tx.writes ts = .ok batch) :
    batch = tx.writeSet.map (versionOp ts) ∧ ∀ w ∈ tx.writeSet, (cfHandle w.cfName).isSome := by
  obtain ⟨ws, hws, rfl⟩ := versionedBatch_eq_ok hbatch
  have hknown := cfHandle_of_resolve hws
  rw [resolve_eq_map hws]
  constructor
  · simp [Transaction.writes, Function.comp_def, versionOp, VersionWrite.toOp]
  · exact fun w hw => hknown _ (List.mem_map_of_mem hw)

/-- A buffered write of a known column family is a version of `k` in `c` just if it is a write of
`k` in `c`. -/
theorem versionOp_touches {w : BufferedWrite} (hw : (cfHandle w.cfName).isSome) (ts : UInt64)
    (c : ColumnFamily) (k : Bytes) (t : UInt64) :
    ((versionOp ts w).cf = c ∧ (versionOp ts w).key = encodeVersionedKey k t) ↔
      t = ts ∧ w.cfName = c.name ∧ w.key = k := by
  obtain ⟨c', hc'⟩ := Option.isSome_iff_exists.mp hw
  have hname : c' = c ↔ w.cfName = c.name := by
    constructor
    · rintro rfl
      exact (name_of_cfHandle hc').symm
    · intro hn
      rw [hn, cfHandle_name] at hc'
      exact (Option.some.inj hc').symm
  simp only [versionOp, WriteOp.cf, WriteOp.key, encodeVersionedKey_inj, hc', Option.getD_some,
    hname]
  tauto

/-- The entry of a version after a commit's batch. -/
theorem getElem?_write_versionedBatch {db : Db} {tx : Transaction} {ts : UInt64}
    {batch : WriteBatch} (hbatch : MvccStore.versionedBatch tx.writes ts = .ok batch)
    (c : ColumnFamily) (k : Bytes) (t : UInt64) :
    (db.write batch c)[encodeVersionedKey k t]? =
      match (if t = ts then tx.ownWrite c.name k else none) with
      | some w => some (w.value.getD tombstone)
      | none => (db c)[encodeVersionedKey k t]? := by
  obtain ⟨rfl, hknown⟩ := versionedBatch_eq_map hbatch
  have hfind : (tx.writeSet.map (versionOp ts)).reverse.find?
      (fun op => decide (op.cf = c ∧ op.key = encodeVersionedKey k t)) =
      (if t = ts then tx.ownWrite c.name k else none).map (versionOp ts) := by
    rw [← List.map_reverse, List.find?_map]
    congr 1
    have hcongr : tx.writeSet.reverse.find? ((fun op => decide (op.cf = c ∧
        op.key = encodeVersionedKey k t)) ∘ versionOp ts) =
        tx.writeSet.reverse.find? fun w => decide (t = ts ∧ w.cfName = c.name ∧ w.key = k) := by
      refine List.find?_congr fun w hw => ?_
      rw [Function.comp_apply, decide_eq_decide]
      exact versionOp_touches (hknown w (List.mem_reverse.mp hw)) ts c k t
    rw [hcongr]
    by_cases ht : t = ts
    · simp [ht, Transaction.ownWrite]
    · simp [ht]
  rw [Db.getElem?_write, hfind]
  cases (if t = ts then tx.ownWrite c.name k else none) with
  | none => rfl
  | some w => rfl

/-- The versions of a key after a commit's batch: one more if the commit wrote it. -/
theorem tableVersions_write {db : Db} {tx : Transaction} {ts : UInt64} {batch : WriteBatch}
    (hbatch : MvccStore.versionedBatch tx.writes ts = .ok batch)
    (huses : ∀ w ∈ tx.writeSet, w.value ≠ some []) (c : ColumnFamily) (k : Bytes) (t : UInt64) :
    TableVersions (db.write batch c) k t =
      match (if t = ts then tx.ownWrite c.name k else none) with
      | some w => some w.value
      | none => TableVersions (db c) k t := by
  rw [TableVersions, getElem?_write_versionedBatch hbatch]
  cases hw : (if t = ts then tx.ownWrite c.name k else none) with
  | none => rfl
  | some w =>
    have hmem : w ∈ tx.writeSet := by
      split at hw
      · exact List.mem_reverse.mp (List.mem_of_find?_eq_some hw)
      · cases hw
    cases hval : w.value with
    | none => simp [hval, versionOf, isTombstone, tombstone]
    | some v =>
      have hv : v ≠ [] := by
        rintro rfl
        exact huses w hmem hval
      simp [hval, versionOf, isTombstone, hv]

/-- The oracle's record is no version of a usable key. -/
theorem getElem?_persist (hK : PrefixFree K) (db : Db) (oracle : TimestampOracle)
    {c : ColumnFamily} {k : Bytes} (hk : K c.name k) (t : UInt64) :
    (MvccStore.persistTimestamp db oracle c)[encodeVersionedKey k t]? =
      (db c)[encodeVersionedKey k t]? := by
  refine Db.getElem?_write_of_forall_ne fun op hop => ?_
  obtain rfl := List.mem_singleton.mp hop
  rintro ⟨rfl, hkey⟩
  have hpre := prefix_encodeVersionedKey k t
  rw [← hkey] at hpre
  exact hK.not_record k hk hpre

/-- The entry of a version of a usable key after a commit. -/
theorem getElem?_afterCommit (hK : PrefixFree K) {m : TransactionManager} {tx : Transaction}
    {batch : WriteBatch} (hbatch : MvccStore.versionedBatch tx.writes m.oracle.counter = .ok batch)
    {c : ColumnFamily} {k : Bytes} (hk : K c.name k) (t : UInt64) :
    ((m.afterCommit tx batch).db c)[encodeVersionedKey k t]? =
      match (if t = m.oracle.counter then tx.ownWrite c.name k else none) with
      | some w => some (w.value.getD tombstone)
      | none => (m.db c)[encodeVersionedKey k t]? := by
  rw [← getElem?_write_versionedBatch hbatch, afterCommit_db]
  split
  · exact getElem?_persist hK _ _ hk t
  · rfl

/-- The versions of a usable key after a commit. -/
theorem tableVersions_afterCommit (hK : PrefixFree K) {m : TransactionManager} {tx : Transaction}
    {batch : WriteBatch} (hbatch : MvccStore.versionedBatch tx.writes m.oracle.counter = .ok batch)
    (huses : ∀ w ∈ tx.writeSet, w.value ≠ some []) {c : ColumnFamily} {k : Bytes}
    (hk : K c.name k) (t : UInt64) :
    TableVersions ((m.afterCommit tx batch).db c) k t =
      match (if t = m.oracle.counter then tx.ownWrite c.name k else none) with
      | some w => some w.value
      | none => TableVersions (m.db c) k t := by
  rw [← tableVersions_write hbatch huses, TableVersions, TableVersions,
    getElem?_afterCommit hK hbatch hk, getElem?_write_versionedBatch hbatch]

/-! ## One step -/

theorem refines_init : Refines K init where
  clocked := clocked_init
  stored c b hb := by simp [init, TransactionManager.new, Db.empty] at hb
  committed c k _ :=
    ⟨none, fun t _ => by simp [TableVersions, init, TransactionManager.new, Db.empty], rfl⟩
  length := rfl
  txs i tx htx := by simp [init] at htx

/-- Entries stay as they were while the counter moves up. -/
theorem Stored.mono {s u : Session} (h : s.Stored K) (hdb : u.manager.db = s.manager.db)
    (hle : s.manager.oracle.counter ≤ u.manager.oracle.counter) : u.Stored K := by
  intro c b hb
  rw [hdb] at hb
  rcases h c b hb with ⟨k, t, hk, hkey, hlt⟩ | hrec
  · exact .inl ⟨k, t, hk, hkey, lt_of_lt_of_le hlt hle⟩
  · exact .inr hrec

/-- A commit adds versions at its timestamp, and perhaps the record. -/
theorem Stored.commit {s s' : Session} (h : s.Stored K) {tx : Transaction} {batch : WriteBatch}
    (hbatch : MvccStore.versionedBatch tx.writes s.manager.oracle.counter = .ok batch)
    (huses : ∀ w ∈ tx.writeSet, K w.cfName w.key)
    (hdb : s'.manager.db = (s.manager.afterCommit tx batch).db)
    (hlt : s.manager.oracle.counter < s'.manager.oracle.counter) : s'.Stored K := by
  obtain ⟨rfl, hknown⟩ := versionedBatch_eq_map hbatch
  have hwrite : ∀ (c : ColumnFamily) (b : Bytes),
      ((s.manager.db.write (tx.writeSet.map (versionOp s.manager.oracle.counter)) c)[b]?).isSome →
        (∃ k t, K c.name k ∧ b = encodeVersionedKey k t ∧ t < s'.manager.oracle.counter) ∨
          (c = .default ∧ b = TimestampOracle.tsOracleKey) := by
    intro c b hb
    by_cases hop : ∃ op ∈ tx.writeSet.map (versionOp s.manager.oracle.counter),
        op.cf = c ∧ op.key = b
    · obtain ⟨op, hop, rfl, rfl⟩ := hop
      obtain ⟨w, hw, rfl⟩ := List.mem_map.mp hop
      obtain ⟨c', hc'⟩ := Option.isSome_iff_exists.mp (hknown w hw)
      refine .inl ⟨w.key, s.manager.oracle.counter, ?_, rfl, hlt⟩
      rw [show (versionOp s.manager.oracle.counter w).cf = c' by simp [versionOp, WriteOp.cf, hc'],
        name_of_cfHandle hc']
      exact huses w hw
    · rw [Db.getElem?_write_of_forall_ne fun op hmem hne => hop ⟨op, hmem, hne⟩] at hb
      exact (h.mono (u := { s with manager := { s.manager with oracle := s'.manager.oracle } })
        rfl hlt.le) c b hb
  intro c b hb
  rw [hdb, afterCommit_db] at hb
  split at hb
  · by_cases hrec : c = .default ∧ b = TimestampOracle.tsOracleKey
    · exact .inr hrec
    · refine hwrite c b ?_
      rwa [MvccStore.persistTimestamp, TimestampOracle.persistToDb,
        Db.getElem?_write_of_forall_ne] at hb
      intro op hop hne
      obtain rfl := List.mem_singleton.mp hop
      exact hrec ⟨hne.1.symm, hne.2.symm⟩
  · exact hwrite c b hb

/-- The committed state after a commit. -/
theorem Shows.commit {s : Session} (hclock : s.Clocked) (hstored : s.Stored K) (hK : PrefixFree K)
    {state : String × Bytes → Option Bytes}
    (h : Shows K s.manager.db (s.manager.oracle.counter - 1) state) {tx : Transaction}
    {batch : WriteBatch}
    (hbatch : MvccStore.versionedBatch tx.writes s.manager.oracle.counter = .ok batch)
    (huses : ∀ w ∈ tx.writeSet, w.value ≠ some []) :
    Shows K (s.manager.afterCommit tx batch).db s.manager.oracle.counter
      (Isolation.applyWrites state (tx.writeSet.map fun w => ((w.cfName, w.key), w.value))) := by
  intro c k hk
  have hver := tableVersions_afterCommit hK hbatch huses hk
  rw [Isolation.applyWrites, lastWrite_map]
  cases hown : tx.ownWrite c.name k with
  | none =>
    -- not written: the version that showed before still does
    obtain ⟨r, hr, hstate⟩ := h.tick hclock hstored hK c k hk
    refine ⟨r, hr.congr_of_le fun t _ => ?_, hstate⟩
    rw [hver t, hown]
    simp
  | some w =>
    refine ⟨some w.value, readsAt_of_top (t := s.manager.oracle.counter) ?_ (le_refl _) ?_, rfl⟩
    · rw [hver, if_pos rfl, hown]
    · intro t ht
      by_cases hts : t = s.manager.oracle.counter
      · exact hts.le
      · rw [hver t, if_neg hts] at ht
        exact (hstored.lt_counter hK hk ht).le

/-- Transactions stay related when one of them moves together with its counterpart. -/
theorem related_set {R R' : Transaction → Isolation.Tx (String × Bytes) Bytes → Prop}
    {txs : List Transaction} {ideals : List (Isolation.Tx (String × Bytes) Bytes)}
    (h : ∀ (j : Nat) (u : Transaction), txs[j]? = some u → ∃ t, ideals[j]? = some t ∧ R u t)
    {i : Nat} {tx tx' : Transaction} (htx : txs[i]? = some tx)
    {f : Isolation.Tx (String × Bytes) Bytes → Isolation.Tx (String × Bytes) Bytes}
    (hself : ∀ t, R tx t → R' tx' (f t)) (hother : ∀ u t, u ∈ txs → R u t → R' u t) :
    ∀ (j : Nat) (u : Transaction), (txs.set i tx')[j]? = some u →
      ∃ t, (ideals.modify i f)[j]? = some t ∧ R' u t := by
  intro j u hu
  by_cases hij : i = j
  · subst hij
    rw [List.getElem?_set_self (List.getElem?_eq_some_iff.mp htx).1] at hu
    cases hu
    obtain ⟨t, ht, hR⟩ := h i tx htx
    exact ⟨f t, by rw [Isolation.getElem?_modify_map, ht]; simp, hself t hR⟩
  · rw [List.getElem?_set_ne hij] at hu
    obtain ⟨t, ht, hR⟩ := h j u hu
    refine ⟨t, by rw [Isolation.getElem?_modify_map, ht]; simp [hij], ?_⟩
    exact hother u t (List.mem_of_getElem? hu) hR

/-- A buffered write is an event. -/
theorem event_of_buffered {op : Op} {i : Nat} {w : BufferedWrite} (h : op.buffered = some (i, w)) :
    event (op, .done (.ok ())) = some (.write i (w.cfName, w.key) w.value) := by
  cases op with
  | put j cfName key value =>
    cases h
    rfl
  | delete j cfName key =>
    cases h
    rfl
  | _ => cases h

theorem uses_of_buffered {op : Op} {i : Nat} {w : BufferedWrite} (h : op.buffered = some (i, w))
    (huses : op.Uses K) : K w.cfName w.key ∧ w.value ≠ some [] := by
  cases op with
  | put j cfName key value =>
    cases h
    exact ⟨huses.1, by simpa using huses.2⟩
  | delete j cfName key =>
    cases h
    exact ⟨huses, by simp⟩
  | _ => cases h

theorem Refines.step {s : Session} (h : Refines K s) (hK : PrefixFree K) {op : Op}
    (hleft : s.TimestampLeft) (huses : op.Uses K) : Refines K (s.step op) := by
  have hclock := h.clocked.step hleft op
  have hsucc := toNat_succ hleft
  have hlt : s.manager.oracle.counter < s.manager.oracle.counter + 1 := by
    rw [UInt64.lt_iff_toNat_lt]
    omega
  have htick := h.committed.tick h.clocked h.stored hK
  generalize hs' : s.step op = s' at hclock ⊢
  have hc : Change s op s' := hs' ▸ s.step_change op
  cases hc with
  | idle op r hr =>
    have hideal : (s.respond op r).ideal = s.ideal := by
      have := s.ideal_respond s.manager s.txs op r
      rwa [event_of_not_effective hr] at this
    exact ⟨hclock, h.stored, hideal ▸ h.committed, hideal ▸ h.length, hideal ▸ h.txs⟩
  | begin =>
    refine ⟨hclock, h.stored.mono rfl hlt.le, ?_, ?_, fun j u hu => ?_⟩
    · rw [ideal_respond s]
      show Shows K s.manager.db (s.manager.oracle.counter + 1 - 1) s.ideal.committed
      rw [add_one_sub_one]
      exact htick
    · rw [ideal_respond s]
      simp [event_begin, Isolation.State.step, respond, h.length]
    · rw [ideal_respond s]
      simp only [event_begin, Option.elim_some, Isolation.State.step]
      simp only [respond, List.getElem?_append] at hu ⊢
      rw [← h.length]
      split at hu
      · next hj =>
        rw [if_pos hj]
        exact h.txs j u hu
      · next hj =>
        rw [if_neg hj]
        rw [List.getElem?_singleton] at hu ⊢
        split at hu
        · next hz =>
          cases hu
          rw [if_pos hz]
          exact ⟨_, rfl, rfl, by simp [Transaction.new], fun _ => h.committed⟩
        · cases hu
  | @buffer _ i w tx hop htx hact =>
    refine ⟨hclock, h.stored, ?_, ?_, ?_⟩
    · rw [ideal_respond s, event_of_buffered hop]
      exact h.committed
    · rw [ideal_respond s, event_of_buffered hop]
      simp [Isolation.State.step, respond, h.length]
    · rw [ideal_respond s, event_of_buffered hop]
      refine related_set h.txs htx (fun t ht => ?_) fun u t _ ht => ht
      refine ⟨by simp [ht.writes], fun w' hw' => ?_, ht.snapshot⟩
      rcases List.mem_append.mp hw' with hw' | hw'
      · exact ht.uses w' hw'
      · obtain rfl := List.mem_singleton.mp hw'
        exact uses_of_buffered hop huses
  | @rollback i tx htx hact =>
    refine ⟨hclock, h.stored, ?_, ?_, ?_⟩
    · rw [ideal_respond s]
      exact h.committed
    · rw [ideal_respond s]
      simp [event_rollback, Isolation.State.step, respond, h.length]
    · rw [ideal_respond s]
      refine related_set h.txs htx (fun t ht => ?_) fun u t _ ht => ht
      exact ⟨ht.writes, ht.uses, fun hst => by cases hst⟩
  | @spend i e =>
    refine ⟨hclock, h.stored.mono rfl hlt.le, ?_, ?_, ?_⟩
    · rw [ideal_respond s]
      show Shows K s.manager.db (s.manager.oracle.counter + 1 - 1) s.ideal.committed
      rw [add_one_sub_one]
      exact htick
    · rw [ideal_respond s]
      exact h.length
    · rw [ideal_respond s]
      exact h.txs
  | @commit i tx batch htx hact hconf hbatch =>
    obtain ⟨t, ht, htR⟩ := h.txs i tx htx
    have huses : ∀ w ∈ tx.writeSet, w.value ≠ some [] := fun w hw => (htR.uses w hw).2
    have hstep : s.ideal.step (.commit i) =
        { committed := Isolation.applyWrites s.ideal.committed t.writes
          txs := s.ideal.txs.modify i fun t => { t with active := false } } := by
      rw [Isolation.State.step, ht]
      simp only [Isolation.State.mk.injEq, true_and]
      refine List.ext_getElem? fun j => ?_
      rw [Isolation.getElem?_modify_map]
      by_cases hij : i = j
      · subst hij
        rw [List.getElem?_set_self (List.getElem?_eq_some_iff.mp ht).1, ht]
        simp
      · rw [List.getElem?_set_ne hij]
        simp [hij]
    refine ⟨hclock, ?_, ?_, ?_, ?_⟩
    · exact h.stored.commit hbatch (fun w hw => (htR.uses w hw).1) rfl
        (by simpa [respond, TimestampOracle.next] using hlt)
    · rw [ideal_respond s]
      simp only [event_commit, Option.elim_some, hstep, respond, afterCommit_oracle, TimestampOracle.next]
      rw [add_one_sub_one, htR.writes]
      exact h.committed.commit h.clocked h.stored hK hbatch huses
    · rw [ideal_respond s]
      simp [event_commit, hstep, respond, h.length]
    · rw [ideal_respond s]
      simp only [event_commit, Option.elim_some, hstep]
      refine related_set h.txs htx (fun t ht => ?_) fun u t hu ht => ?_
      · exact ⟨ht.writes, ht.uses, fun hst => by cases hst⟩
      · refine ⟨ht.writes, ht.uses, fun hst => (ht.snapshot hst).congr fun c k hk v hv => ?_⟩
        -- the commit is above every snapshot
        have hne : v ≠ s.manager.oracle.counter :=
          ne_of_lt (lt_of_le_of_lt hv (h.clocked.ahead u hu))
        simp only [respond]
        rw [tableVersions_afterCommit hK hbatch huses hk, if_neg hne]

/-! ## Whole runs -/

theorem Refines.run {s : Session} (h : Refines K s) (hK : PrefixFree K) {ops : List Op}
    (huses : ∀ op ∈ ops, op.Uses K)
    (hleft : Run.Each Session.step (fun s _ => s.TimestampLeft) s ops) : Refines K (s.run ops) :=
  Run.invariant (Refines K) (fun _ _ h hok => h.step hK hok.1 hok.2) h
    (hleft.and_forall_mem huses)

/-- Nothing shadows a read of a usable key. -/
theorem Stored.unshadowed {s : Session} (h : s.Stored K) (hK : PrefixFree K) {c : ColumnFamily}
    {k : Bytes} (hk : K c.name k) (t : UInt64) :
    Unshadowed (TableVersions (s.manager.db c)) k t := by
  rintro u v - - k' t' hne hp ⟨hlo, hhi⟩
  -- an entry between two versions of `k` starts with `k`
  have hpre : k <+: encodeVersionedKey k' t' :=
    LexOrder.prefix_of_between (prefix_encodeVersionedKey k u64Max) (prefix_encodeVersionedKey k u)
      hlo hhi.le
  rcases h c _ (by simpa [TableVersions] using hp) with ⟨k₀, t₀, hk₀, heq, -⟩ | ⟨rfl, heq⟩
  · obtain ⟨rfl, rfl⟩ := encodeVersionedKey_inj.mp heq
    rcases List.prefix_or_prefix_of_prefix hpre (prefix_encodeVersionedKey k' t') with hle | hle
    · exact hne (hK.eq_of_prefix _ _ _ hk hk₀ hle).symm
    · exact hne (hK.eq_of_prefix _ _ _ hk₀ hk hle)
  · exact hK.not_record k hk (heq ▸ hpre)

theorem Stored.allVersioned {s : Session} (h : s.Stored K) (c : ColumnFamily) :
    AllVersioned (s.manager.db c) := by
  intro b hb
  rcases h c b hb with ⟨k, t, -, rfl, -⟩ | ⟨-, rfl⟩
  · simp
  · decide

/-- An active transaction reads what its ideal counterpart reads. -/
theorem Refines.get_eq {s : Session} (h : Refines K s) (hK : PrefixFree K) {i : Nat}
    {tx : Transaction} (htx : s.txs[i]? = some tx) (hact : tx.state = .active) {cfName : String}
    {c : ColumnFamily} (hc : cfHandle cfName = some c) {k : Bytes} (hk : K cfName k) :
    ∃ t, s.ideal.txs[i]? = some t ∧ tx.get s.manager.db cfName k = .ok (t.read (cfName, k)) := by
  obtain ⟨t, ht, htR⟩ := h.txs i tx htx
  refine ⟨t, ht, ?_⟩
  have hname := name_of_cfHandle hc
  rw [Isolation.Tx.read, Isolation.applyWrites, htR.writes, lastWrite_map]
  cases hown : tx.ownWrite cfName k with
  | some w => simp [Transaction.get, hact, hown]
  | none =>
    rw [← hname] at hk
    obtain ⟨r, hr, hstate⟩ := htR.snapshot hact c k hk
    obtain ⟨r', hr', hread⟩ := (MvccStore.readAt_newest_iff (h.stored.allVersioned c) k
      tx.snapshotTs).mpr (h.stored.unshadowed hK hk _)
    obtain rfl := hr.unique hr'
    rw [hname] at hstate
    simp [Transaction.get, hact, hown, MvccStore.getAt, mvccCf, hc, bind, Except.bind, pure,
      Except.pure, Except.mapError, hread, hstate]

/-- The ideal store takes the step of the session, or none. -/
theorem ideal_step (s : Session) (op : Op) :
    ∃ r, (s.step op).ideal = (event (op, r)).elim s.ideal s.ideal.step := by
  generalize hs' : s.step op = s'
  have hc : Change s op s' := hs' ▸ s.step_change op
  cases hc with
  | idle op r => exact ⟨r, s.ideal_respond s.manager s.txs op r⟩
  | begin | buffer | rollback | spend | commit => exact ⟨_, s.ideal_respond _ _ _ _⟩

/-- Only an operation that buffers a write is a write. -/
theorem buffered_of_event {op : Op} {r : Response} {i : Nat} {key : String × Bytes}
    {v : Option Bytes} (h : event (op, r) = some (.write i key v)) :
    ∃ w, op.buffered = some (i, w) := by
  rw [event, Option.ite_none_right_eq_some] at h
  obtain ⟨-, h⟩ := h
  cases op with
  | put j cfName key value =>
    cases h
    exact ⟨_, rfl⟩
  | delete j cfName key =>
    cases h
    exact ⟨_, rfl⟩
  | _ => cases h

/-- What a transaction's counterpart reads changes only with the transaction's own writes. -/
theorem ideal_read_step {s : Session} (op : Op) {i : Nat} (hop : ∀ w, op.buffered ≠ some (i, w))
    {t : Isolation.Tx (String × Bytes) Bytes} (ht : s.ideal.txs[i]? = some t) :
    ∃ t', (s.step op).ideal.txs[i]? = some t' ∧ t'.read = t.read := by
  obtain ⟨r, hr⟩ := s.ideal_step op
  rw [hr]
  cases hev : event (op, r) with
  | none => exact ⟨t, ht, rfl⟩
  | some e =>
    refine Isolation.read_step _ (fun key v he => ?_) ht
    subst he
    obtain ⟨w, hw⟩ := buffered_of_event hev
    exact hop w hw

/-- **Snapshot isolation.** In every state of every run whose timestamps last, an active transaction
reads what the ideal store says: its own last write, or what was committed when it began. Whatever
is done later, short of writing itself, it reads the same. -/
theorem get_eq_ideal_read (K : String → Bytes → Prop) (hK : PrefixFree K) (ops : List Op)
    (huses : ∀ op ∈ ops, op.Uses K)
    (hleft : Run.Each step (fun s _ => s.TimestampLeft) init ops) (i : Nat) (tx : Transaction)
    (htx : (init.run ops).txs[i]? = some tx) (hact : tx.state = .active) (cfName : String)
    (c : ColumnFamily) (hc : cfHandle cfName = some c) (k : Bytes) (hk : K cfName k) :
    (∃ t, (init.run ops).ideal.txs[i]? = some t ∧
      tx.get (init.run ops).manager.db cfName k = .ok (t.read (cfName, k))) ∧
    ∀ later tx', (∀ op ∈ later, op.Uses K ∧ ∀ w, op.buffered ≠ some (i, w)) →
      Run.Each step (fun s _ => s.TimestampLeft) (init.run ops) later →
      ((init.run ops).run later).txs[i]? = some tx' → tx'.state = .active →
      tx'.get ((init.run ops).run later).manager.db cfName k =
        tx.get (init.run ops).manager.db cfName k := by
  have href : Refines K (init.run ops) := refines_init.run hK huses hleft
  obtain ⟨t, ht, hget⟩ := href.get_eq hK htx hact hc hk
  refine ⟨⟨t, ht, hget⟩, fun later tx' hlater hleft' htx' hact' => ?_⟩
  have href' := href.run hK (fun op hop => (hlater op hop).1) hleft'
  obtain ⟨t', ht', hget'⟩ := href'.get_eq hK htx' hact' hc hk
  obtain ⟨t'', ht'', hread⟩ := Run.invariant
    (fun u : Session => ∃ t', u.ideal.txs[i]? = some t' ∧ t'.read = t.read)
    (fun u op ⟨t', ht', hread⟩ hop => by
      obtain ⟨t'', ht'', hread'⟩ := ideal_read_step op hop.2.2 ht'
      exact ⟨t'', ht'', hread'.trans hread⟩)
    ⟨t, ht, rfl⟩ (hleft'.and_forall_mem hlater)
  rw [hget', hget, show t' = t'' from Option.some.inj (ht'.symm.trans ht''), hread]

/-! ## Where it ends -/

/-- The only key of the runs below. -/
def OneKey (cfName : String) (k : Bytes) : Prop := cfName = "nodes" ∧ k = [1]

theorem prefixFree_oneKey : PrefixFree OneKey where
  eq_of_prefix := by
    rintro _ _ _ ⟨-, rfl⟩ ⟨-, rfl⟩ -
    rfl
  not_record := by
    rintro _ ⟨hname, -⟩
    exact absurd hname (by decide)

/-- After `n` transactions have begun, one more begins, and then another writes and commits. -/
def beginAfter (n : Nat) : List Op :=
  List.replicate n .begin ++ [.begin, .begin, .put (n + 1) "nodes" [1] [2], .commit (n + 1)]

theorem uses_beginAfter (n : Nat) : ∀ op ∈ beginAfter n, op.Uses OneKey := by
  intro op hop
  rcases List.mem_append.mp hop with hop | hop
  · obtain rfl := List.eq_of_mem_replicate hop
    trivial
  · fin_cases hop
    · trivial
    · trivial
    · exact ⟨⟨rfl, rfl⟩, by decide⟩
    · trivial

/-- Nothing but begins so far. -/
structure OnlyBegun (n : Nat) (s : Session) : Prop where
  db : s.manager.db = Db.empty
  table : s.manager.committedWrites = ∅
  counter : s.manager.oracle.counter = UInt64.ofNat (n + 1)
  length : s.txs.length = n
  ideal_length : s.ideal.txs.length = n
  committed : s.ideal.committed = fun _ => none

theorem OnlyBegun.begin {n : Nat} {s : Session} (h : OnlyBegun n s) :
    OnlyBegun (n + 1) (s.step .begin) ∧
      (s.step .begin).txs =
        s.txs ++ [Transaction.new s.manager.oracle.counter (s.manager.oracle.counter - 1)] ∧
      (s.step .begin).ideal.txs = s.ideal.txs ++ [⟨fun _ => none, [], true⟩] := by
  have hideal : (s.step .begin).ideal = s.ideal.step .begin := s.ideal_respond _ _ .begin .began
  have hcounter : (s.step .begin).manager.oracle.counter = s.manager.oracle.counter + 1 := rfl
  refine ⟨⟨h.db, h.table, ?_, ?_, ?_, ?_⟩, rfl, ?_⟩
  · rw [hcounter, h.counter]
    simp
  · simp [step, TransactionManager.begin, respond, h.length]
  · simp [hideal, Isolation.State.step, h.ideal_length]
  · rw [hideal]
    exact h.committed
  · rw [hideal, ← h.committed]
    rfl

theorem onlyBegun_replicate (n : Nat) : OnlyBegun n (init.run (List.replicate n .begin)) := by
  induction n with
  | zero => exact ⟨rfl, rfl, rfl, rfl, rfl, rfl⟩
  | succ n ih =>
    rw [List.replicate_succ', run, Run.exec_append]
    exact ih.begin.1

/-- When the counter stands at zero, the transaction that begins next has a snapshot above every
timestamp, and sees commits that come after it. -/
theorem get_beginAfter {n : Nat} (hn : UInt64.ofNat (n + 1) = 0) :
    ∃ tx t, (init.run (beginAfter n)).txs[n]? = some tx ∧ tx.state = .active ∧
      (init.run (beginAfter n)).ideal.txs[n]? = some t ∧ t.read ("nodes", [1]) = none ∧
      tx.get (init.run (beginAfter n)).manager.db "nodes" [1] = .ok (some [2]) := by
  have hrun : init.run (beginAfter n) = ((((init.run (List.replicate n .begin)).step .begin).step
      .begin).step (.put (n + 1) "nodes" [1] [2])).step (.commit (n + 1)) := by
    rw [beginAfter, run, Run.exec_append]
    rfl
  have h₀ := onlyBegun_replicate n
  generalize init.run (List.replicate n .begin) = u₀ at hrun h₀
  obtain ⟨h₁, htxs₁, hideal₁⟩ := h₀.begin
  obtain ⟨h₂, htxs₂, -⟩ := h₁.begin
  have hc₀ : u₀.manager.oracle.counter = 0 := h₀.counter.trans hn
  have hc₁ : (u₀.step .begin).manager.oracle.counter = 1 := by
    show u₀.manager.oracle.counter + 1 = 1
    rw [hc₀]
    rfl
  have hc₂ : ((u₀.step .begin).step .begin).manager.oracle.counter = 2 := by
    show (u₀.step .begin).manager.oracle.counter + 1 = 2
    rw [hc₁]
    rfl
  rw [hc₀] at htxs₁
  rw [hc₁] at htxs₂
  -- what the ideal store shows to the first of the two
  have hread : ∃ t, (u₀.step .begin).ideal.txs[n]? = some t ∧ t.read ("nodes", [1]) = none := by
    refine ⟨⟨fun _ => none, [], true⟩, ?_, rfl⟩
    rw [hideal₁, List.getElem?_append_right (by rw [h₀.ideal_length]), h₀.ideal_length]
    simp
  generalize hu₁ : u₀.step .begin = u₁ at *
  generalize hu₂ : u₁.step .begin = u₂ at *
  have hreader : u₂.txs[n]? = some (Transaction.new 0 u64Max) := by
    rw [htxs₂, List.getElem?_append_left (by rw [h₁.length]; omega), htxs₁,
      List.getElem?_append_right (by rw [h₀.length]), h₀.length]
    simp
    rfl
  have hwriter : u₂.txs[n + 1]? = some (Transaction.new 1 0) := by
    rw [htxs₂, List.getElem?_append_right (by rw [h₁.length]), h₁.length]
    simp
  have hput : u₂.step (.put (n + 1) "nodes" [1] [2]) =
      { u₂ with txs := u₂.txs.set (n + 1) ⟨1, 0, .active, [⟨"nodes", [1], some [2]⟩]⟩ }.respond
        (.put (n + 1) "nodes" [1] [2]) (.done (.ok ())) := by
    simp [step, hwriter, Transaction.put, Transaction.buffer, Transaction.new, update, Except.map]
  generalize hu₃ : u₂.step (.put (n + 1) "nodes" [1] [2]) = u₃ at *
  have hwriter₃ : u₃.txs[n + 1]? = some ⟨1, 0, .active, [⟨"nodes", [1], some [2]⟩]⟩ := by
    rw [hput]
    exact List.getElem?_set_self (List.getElem?_eq_some_iff.mp hwriter).1
  have hcommit := step_commit (s := u₃) (i := n + 1)
    (b := [.put .nodes (encodeVersionedKey [1] 2) [2]]) hwriter₃ rfl
    (by rw [hput]; simp [conflicts, respond, h₂.table]) (by rw [hput]; simp only [respond, hc₂]; rfl)
  have hdb : (u₃.step (.commit (n + 1))).manager.db =
      Db.empty.write [.put .nodes (encodeVersionedKey [1] 2) [2]] := by
    rw [hcommit]
    simp only [respond, afterCommit_db, hput, hc₂, h₂.db]
    rfl
  -- the reader's counterpart reads what it read when it began
  obtain ⟨t, ht, htread⟩ := hread
  obtain ⟨t₂, ht₂, hread₂⟩ := ideal_read_step .begin (fun w h => by cases h) ht
  rw [hu₂] at ht₂
  obtain ⟨t₃, ht₃, hread₃⟩ := ideal_read_step (.put (n + 1) "nodes" [1] [2])
    (fun w h => by simp [Op.buffered] at h) ht₂
  rw [hu₃] at ht₃
  obtain ⟨t₄, ht₄, hread₄⟩ := ideal_read_step (.commit (n + 1)) (fun w h => by cases h) ht₃
  refine ⟨Transaction.new 0 u64Max, t₄, ?_, rfl, hrun ▸ ht₄, ?_, ?_⟩
  · rw [hrun, hcommit]
    simp only [respond]
    rw [List.getElem?_set_ne (by omega), hput]
    simp only [respond]
    rw [List.getElem?_set_ne (by omega), hreader]
  · rw [hread₄, hread₃, hread₂, htread]
  · rw [hrun, hdb]
    decide

/-- **Where the claim ends.** A read of a column family the store does not have is an error, and
2⁶⁴ − 1 transactions exhaust the timestamps: the next one to begin sees a later commit. -/
theorem get_after_wraparound :
    ((init.run [.begin]).txs[0]?.map fun tx =>
        tx.get (init.run [.begin]).manager.db "missing" [1]) =
      some (.error (.mvcc (.internal "column family not found: missing"))) ∧
    PrefixFree OneKey ∧ (∀ op ∈ beginAfter (2 ^ 64 - 1), op.Uses OneKey) ∧
    ∃ tx t, (init.run (beginAfter (2 ^ 64 - 1))).txs[2 ^ 64 - 1]? = some tx ∧
      tx.state = .active ∧ (init.run (beginAfter (2 ^ 64 - 1))).ideal.txs[2 ^ 64 - 1]? = some t ∧
      t.read ("nodes", [1]) = none ∧
      tx.get (init.run (beginAfter (2 ^ 64 - 1))).manager.db "nodes" [1] = .ok (some [2]) :=
  ⟨by decide, prefixFree_oneKey, uses_beginAfter _, get_beginAfter (by decide)⟩

/-- A reader that began before the writer committed, and one that began after. -/
def readersAround : List Op :=
  [.begin, .begin, .put 1 "nodes" [1] [2], .commit 1, .begin]

theorem get_readersAround :
    (∃ t, (init.run readersAround).ideal.txs[2]? = some t ∧
      (Transaction.new 4 3).get (init.run readersAround).manager.db "nodes" [1] =
        .ok (t.read ("nodes", [1]))) ∧
    (Transaction.new 4 3).get ((init.run readersAround).run [.rollback 0]).manager.db "nodes" [1] =
      (Transaction.new 4 3).get (init.run readersAround).manager.db "nodes" [1] := by
  have huses : ∀ op ∈ readersAround, op.Uses OneKey := by
    intro op hop
    fin_cases hop
    · trivial
    · trivial
    · exact ⟨⟨rfl, rfl⟩, by decide⟩
    · trivial
    · trivial
  obtain ⟨hread, hlater⟩ := get_eq_ideal_read OneKey prefixFree_oneKey readersAround huses
    (by decide) 2 (Transaction.new 4 3) (by decide) rfl "nodes" .nodes (by decide)
    [1] ⟨rfl, rfl⟩
  refine ⟨hread, hlater [.rollback 0] (Transaction.new 4 3) ?_ (by decide)
    (by decide) rfl⟩
  rintro op hop
  obtain rfl := List.mem_singleton.mp hop
  exact ⟨trivial, fun w h => by cases h⟩

end Session

end Synaptica.Tx
