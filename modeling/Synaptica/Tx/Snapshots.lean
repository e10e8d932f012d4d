import Synaptica.Storage.MvccFrame
import Synaptica.Tx.Steps

/-!
# Read-only snapshots

`TransactionManager::snapshot` reads at the timestamp the oracle stands at, which is the timestamp
it will hand out next. If a transaction that is already open commits first, its writes carry exactly
that timestamp and show up in the snapshot after the fact. `begin` takes the timestamp *below* its
own for this reason.

* `GetUndisturbed`, `ScanUndisturbed` — a step writes nothing a given read of the snapshot can see.
* `snapshot_stable` — in runs of such steps the read repeats.
* `snapshot_moves` — two operations are enough to change what a snapshot reads.
-/

namespace Synaptica.Tx

open Storage TransactionManager

namespace Session

/-- The transaction an operation commits: it is active, without conflicts, and writes to column
families that exist. -/
def committing (s : Session) : Op → Option Transaction
  | .commit i => s.txs[i]?.filter fun tx =>
      decide (tx.state = .active ∧ s.manager.conflicts tx = false ∧
        ∀ w ∈ tx.writeSet, (cfHandle w.cfName).isSome)
  | _ => none

/-- Every entry the step adds to the column family is unseen. -/
def Undisturbed (Unseen : Bytes → Prop) (cfName : String) (s : Session) (op : Op) : Prop :=
  ∀ tx ∈ s.committing op,
    (∀ w ∈ tx.writeSet, w.cfName = cfName →
      Unseen (encodeVersionedKey w.key s.manager.oracle.counter)) ∧
    (s.manager.oracle.counter % 100 = 0 → cfName = ColumnFamily.default.name →
      Unseen TimestampOracle.tsOracleKey)

instance (Unseen : Bytes → Prop) [DecidablePred Unseen] (cfName : String) (s : Session) (op : Op) :
    Decidable (Undisturbed Unseen cfName s op) :=
  inferInstanceAs (Decidable (∀ tx ∈ s.committing op, _))

/-- The step adds nothing a point read of `k` at `ts` can see. -/
abbrev GetUndisturbed (ts : UInt64) (cfName : String) (k : Bytes) : Session → Op → Prop :=
  Undisturbed (UnseenByGet k ts) cfName

/-- The step adds nothing a scan of `p` at `ts` can see. -/
abbrev ScanUndisturbed (ts : UInt64) (cfName : String) (p : Bytes) : Session → Op → Prop :=
  Undisturbed (UnseenByScan p ts) cfName

/-! ## What a step writes -/

/-- The batch a step writes: nothing, or what a commit writes and now and then the oracle's
record. -/
theorem db_step (s : Session) (op : Op) :
    ∃ batch, (s.step op).manager.db = s.manager.db.write batch ∧
      ∀ wop ∈ batch, 8 ≤ wop.key.length ∧ ∃ tx ∈ s.committing op,
        ((∃ w ∈ tx.writeSet, cfHandle w.cfName = some wop.cf ∧
            wop.key = encodeVersionedKey w.key s.manager.oracle.counter) ∨
          (s.manager.oracle.counter % 100 = 0 ∧ wop.cf = .default ∧
            wop.key = TimestampOracle.tsOracleKey)) := by
  generalize hs' : s.step op = s'
  have hc : Change s op s' := hs' ▸ s.step_change op
  cases hc with
  | idle | begin | buffer | rollback | spend => exact ⟨[], rfl, by simp⟩
  | @commit i tx batch htx hact hconf hbatch =>
    have hcommits : tx ∈ s.committing (.commit i) := by
      simp only [committing, htx, Option.mem_def, Option.filter_eq_some_iff, true_and,
        decide_eq_true_eq]
      refine ⟨hact, hconf, fun w hw => ?_⟩
      obtain ⟨ws, hws, -⟩ := versionedBatch_eq_ok hbatch
      exact cfHandle_of_resolve hws _ (List.mem_map_of_mem hw)
    have hmem : ∀ wop ∈ batch, 8 ≤ wop.key.length ∧ ∃ tx ∈ s.committing (.commit i),
        ∃ w ∈ tx.writeSet, cfHandle w.cfName = some wop.cf ∧
          wop.key = encodeVersionedKey w.key s.manager.oracle.counter := by
      intro wop hwop
      obtain ⟨hlen, _, hw, hcf, hkey⟩ := versionedBatch_mem hbatch hwop
      obtain ⟨w, hmem, rfl⟩ := List.mem_map.mp hw
      exact ⟨hlen, tx, hcommits, w, hmem, hcf, hkey⟩
    rw [show (respond _ _ _).manager.db = (s.manager.afterCommit tx batch).db from rfl,
      afterCommit_db]
    by_cases hp : s.manager.oracle.counter % 100 = 0
    · rw [if_pos hp]
      refine ⟨batch ++ [.put .default TimestampOracle.tsOracleKey
        (BigEndian.beBytes 8 s.manager.oracle.next.2.counter.toNat)], ?_, fun wop hwop => ?_⟩
      · rw [Db.write_append]
        rfl
      · rcases List.mem_append.mp hwop with hwop | hwop
        · obtain ⟨hlen, tx', htx', hw⟩ := hmem wop hwop
          exact ⟨hlen, tx', htx', .inl hw⟩
        · obtain rfl := List.mem_singleton.mp hwop
          exact ⟨show 8 ≤ TimestampOracle.tsOracleKey.length by decide, tx, hcommits, .inr ⟨hp, rfl, rfl⟩⟩
    · rw [if_neg hp]
      refine ⟨batch, rfl, fun wop hwop => ?_⟩
      obtain ⟨hlen, tx', htx', hw⟩ := hmem wop hwop
      exact ⟨hlen, tx', htx', .inl hw⟩

/-- Every entry in the store is long enough to carry a timestamp. -/
def Stamped (s : Session) : Prop := ∀ c, AllVersioned (s.manager.db c)

theorem stamped_init : Stamped init := by
  intro c b hb
  simp [init, TransactionManager.new, Db.empty] at hb

theorem Stamped.step {s : Session} (h : s.Stamped) (op : Op) : (s.step op).Stamped := by
  intro c
  obtain ⟨batch, hdb, hbatch⟩ := s.db_step op
  rw [hdb]
  exact (h c).write fun wop hwop => (hbatch wop hwop).1

theorem stamped_run (ops : List Op) : (init.run ops).Stamped :=
  Run.invariant Stamped (fun _ op h _ => h.step op) stamped_init
    (Run.each_true _ _)

/-! ## One step -/

/-- What an undisturbing step adds to the column family is unseen. -/
theorem unseen_of_undisturbed {s : Session} {op : Op} {Unseen : Bytes → Prop} {cfName : String}
    {c : ColumnFamily} (hc : cfHandle cfName = some c) (h : Undisturbed Unseen cfName s op) :
    ∃ batch, (s.step op).manager.db = s.manager.db.write batch ∧
      ∀ wop ∈ batch, wop.cf = c → Unseen wop.key := by
  obtain ⟨batch, hdb, hbatch⟩ := s.db_step op
  have hname := name_of_cfHandle hc
  refine ⟨batch, hdb, fun wop hwop hcf => ?_⟩
  obtain ⟨-, tx, htx, ⟨w, hw, hwc, hkey⟩ | ⟨hp, hdef, hkey⟩⟩ := hbatch wop hwop
  · rw [hkey]
    exact (h tx htx).1 w hw ((name_of_cfHandle (hcf ▸ hwc)).symm.trans hname)
  · rw [hkey]
    exact (h tx htx).2 hp (by rw [← hname, ← hcf, hdef])

theorem readAt_step {s : Session} (hs : s.Stamped) {op : Op} {ts : UInt64} {cfName : String}
    {c : ColumnFamily} (hc : cfHandle cfName = some c) {k : Bytes}
    (h : GetUndisturbed ts cfName k s op) :
    MvccStore.readAt ((s.step op).manager.db c) k ts = MvccStore.readAt (s.manager.db c) k ts := by
  obtain ⟨batch, hdb, hbatch⟩ := unseen_of_undisturbed hc h
  have hm' := hs.step op c
  rw [hdb] at hm' ⊢
  exact MvccStore.readAt_write (hs c) hm' hbatch

theorem scanAt_step {s : Session} {op : Op} {ts : UInt64} {cfName : String} {c : ColumnFamily}
    (hc : cfHandle cfName = some c) {p : Bytes} (h : ScanUndisturbed ts cfName p s op) :
    MvccStore.scanAt ((s.step op).manager.db c) p ts = MvccStore.scanAt (s.manager.db c) p ts := by
  obtain ⟨batch, hdb, hbatch⟩ := unseen_of_undisturbed hc h
  rw [hdb]
  exact MvccStore.scanAt_write hbatch

/-! ## Whole runs -/

theorem readAt_run {s : Session} (hs : s.Stamped) {later : List Op} {ts : UInt64}
    {cfName : String} {c : ColumnFamily} (hc : cfHandle cfName = some c) {k : Bytes}
    (h : Run.Each step (GetUndisturbed ts cfName k) s later) :
    MvccStore.readAt ((s.run later).manager.db c) k ts =
      MvccStore.readAt (s.manager.db c) k ts := by
  have hinv := Run.invariant
    (fun u => u.Stamped ∧ MvccStore.readAt (u.manager.db c) k ts =
      MvccStore.readAt (s.manager.db c) k ts)
    (fun u op hu hok => ⟨hu.1.step op, (readAt_step hu.1 hc hok).trans hu.2⟩) ⟨hs, rfl⟩ h
  exact hinv.2

theorem scanAt_run {s : Session} {later : List Op} {ts : UInt64} {cfName : String}
    {c : ColumnFamily} (hc : cfHandle cfName = some c) {p : Bytes}
    (h : Run.Each step (ScanUndisturbed ts cfName p) s later) :
    MvccStore.scanAt ((s.run later).manager.db c) p ts =
      MvccStore.scanAt (s.manager.db c) p ts :=
  Run.invariant
    (fun u => MvccStore.scanAt (u.manager.db c) p ts =
      MvccStore.scanAt (s.manager.db c) p ts)
    (fun _ _ hu hok => (scanAt_step hc hok).trans hu) rfl h

/-- **Snapshots are stable** for every read that the later steps do not disturb: whatever happened
before the snapshot was taken, and whatever its readers ask for. -/
theorem snapshot_stable (ops later : List Op) (cfName : String) :
    (∀ k, Run.Each step (GetUndisturbed (init.run ops).manager.snapshot cfName k)
        (init.run ops) later →
      Snapshot.get (init.run ops).manager.snapshot ((init.run ops).run later).manager.db cfName k =
        Snapshot.get (init.run ops).manager.snapshot (init.run ops).manager.db cfName k) ∧
    (∀ p, Run.Each step (ScanUndisturbed (init.run ops).manager.snapshot cfName p)
        (init.run ops) later →
      Snapshot.prefixScan (init.run ops).manager.snapshot ((init.run ops).run later).manager.db
          cfName p =
        Snapshot.prefixScan (init.run ops).manager.snapshot (init.run ops).manager.db cfName p) := by
  cases hc : cfHandle cfName with
  | none =>
    constructor <;> intro _ _ <;>
      simp [Snapshot.get, Snapshot.prefixScan, MvccStore.getAt, MvccStore.prefixScanAt, mvccCf, hc,
        bind, Except.bind]
  | some c =>
    constructor
    · intro k h
      simp [Snapshot.get, MvccStore.getAt, mvccCf, hc, bind, Except.bind, pure, Except.pure,
        readAt_run (stamped_run ops) hc h]
    · intro p h
      simp [Snapshot.prefixScan, MvccStore.prefixScanAt, mvccCf, hc, bind, Except.bind, pure,
        Except.pure, scanAt_run hc h]

/-- A transaction with one buffered write. -/
def openWriter : List Op := [.begin, .put 0 "nodes" [1] [2]]

/-- **A snapshot that moves.** The open transaction commits at the snapshot's own timestamp. -/
theorem snapshot_moves :
    Snapshot.get (init.run openWriter).manager.snapshot (init.run openWriter).manager.db "nodes"
        [1] = .ok none ∧
      Snapshot.get (init.run openWriter).manager.snapshot
        ((init.run openWriter).run [.commit 0]).manager.db "nodes" [1] = .ok (some [2]) ∧
      Snapshot.prefixScan (init.run openWriter).manager.snapshot (init.run openWriter).manager.db
        "nodes" [1] = .ok [] ∧
      Snapshot.prefixScan (init.run openWriter).manager.snapshot
        ((init.run openWriter).run [.commit 0]).manager.db "nodes" [1] = .ok [([1], [2])] := by
  decide

/-- The same commit does no harm once another transaction has begun. -/
theorem snapshot_stable_openWriter :
    Snapshot.get (init.run openWriter).manager.snapshot
        ((init.run openWriter).run [.begin, .commit 0]).manager.db "nodes" [1] =
      Snapshot.get (init.run openWriter).manager.snapshot (init.run openWriter).manager.db "nodes"
        [1] ∧
    Snapshot.prefixScan (init.run openWriter).manager.snapshot
        ((init.run openWriter).run [.begin, .commit 0]).manager.db "nodes" [] =
      Snapshot.prefixScan (init.run openWriter).manager.snapshot (init.run openWriter).manager.db
        "nodes" [] := by
  obtain ⟨hget, hscan⟩ := snapshot_stable openWriter [.begin, .commit 0] "nodes"
  exact ⟨hget [1] (by decide), hscan [] (by decide)⟩

end Session

end Synaptica.Tx
