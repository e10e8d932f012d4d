import Synaptica.Storage.MvccGc
import Synaptica.Tx.FirstCommitter
import Synaptica.Tx.SnapshotIsolation

/-!
# Garbage collection between transactions

`gc_before` removes old versions from the store, `gc_committed_writes` old records from the table of
commits. Both take a watermark, which is meant to be below the snapshot of every open transaction.

* `Call` — an operation of a client, or one of the two collections.
* `Agrees` — a session with collections and one without them, seen by their clients.
* `collecting_history` — as long as no watermark passes an open snapshot, and pruning drops no record
  an open transaction needs, every operation is answered as if nothing had been collected.
-/

namespace Synaptica.Tx

open Storage Versioned

/-! ## The code -/

namespace TransactionManager

/-- `gc_committed_writes`. -/
def gcCommittedWrites (m : TransactionManager) (watermark : UInt64) : TransactionManager :=
  { m with
    committedWrites := m.committedWrites.filter fun ts _ => decide (watermark < ts)
    gcWatermark := watermark }

end TransactionManager

inductive Call where
  | op (o : Op)
  | gcBefore (cfName : String) (pre : Bytes) (watermark : UInt64)
  | gcCommittedWrites (watermark : UInt64)
  deriving DecidableEq, Repr

namespace Call

def op? : Call → Option Op
  | op o => some o
  | _ => none

end Call

namespace Session

/-- A collection of the store; one in an unknown column family changes nothing. -/
def gcBefore (s : Session) (cfName : String) (pre : Bytes) (watermark : UInt64) : Session :=
  match MvccStore.gcBefore s.manager.db cfName pre watermark with
  | .ok (db, _) => { s with manager := { s.manager with db } }
  | .error _ => s

def call (s : Session) : Call → Session
  | .op o => s.step o
  | .gcBefore cfName pre watermark => s.gcBefore cfName pre watermark
  | .gcCommittedWrites watermark =>
    { s with manager := s.manager.gcCommittedWrites watermark }

/-- The watermark is in the past, for the oracle and for every open transaction. -/
structure Past (s : Session) (watermark : UInt64) : Prop where
  counter : watermark < s.manager.oracle.counter
  snapshots : ∀ tx ∈ s.txs, tx.state = .active → watermark ≤ tx.snapshotTs

/-- The condition on a step: an operation finds a timestamp, uses the keys of the run and prunes no
record that is needed, a collection has its watermark in the past. -/
def Admits (K : String → Bytes → Prop) (s : Session) : Call → Prop
  | .op o => s.TimestampLeft ∧ s.KeepsOpenRecords o ∧ o.Uses K
  | .gcBefore _ _ watermark => s.Past watermark
  | .gcCommittedWrites watermark => s.Past watermark

/-! ## Collecting versions -/

variable {K : String → Bytes → Prop}

/-- What a reader at or above the watermark is shown is not collected. -/
theorem readsAt_collected {m m' : Table} {p k : Bytes} {w t : UInt64} {n : Nat}
    {r : Option (Option Bytes)} (h : Collected p w m m' n) (hw : w ≤ t)
    (hr : ReadsAt (TableVersions m k) t r) : ReadsAt (TableVersions m' k) t r := by
  cases r with
  | none =>
    intro u hu
    rcases h.kept (encodeVersionedKey k u) with heq | hnone
    · rw [TableVersions, heq]
      exact hr u hu
    · rw [TableVersions, hnone]
      rfl
  | some v =>
    obtain ⟨u, hnew, hv⟩ := hr
    obtain ⟨b, hb, rfl⟩ := Option.map_eq_some_iff.mp hv
    obtain ⟨hnew', hb'⟩ := (h.newest k t hw u b).mpr ⟨hnew, hb⟩
    exact ⟨u, hnew', by rw [TableVersions, hb']; rfl⟩

/-- A collection leaves every other column family alone. -/
structure CollectedIn (c : ColumnFamily) (p : Bytes) (w : UInt64) (db db' : Db) : Prop where
  collected : ∃ n, Collected p w (db c) (db' c) n
  others : ∀ c', c' ≠ c → db' c' = db c'

theorem collectedIn_gcBefore {db : Db} {c : ColumnFamily} (hm : AllVersioned (db c)) (p : Bytes)
    (w : UInt64) :
    CollectedIn c p w db (db.write ((MvccStore.toDelete (db c) p w).map fun k => .delete c k)) where
  collected := by
    refine ⟨_, collected_of_deletes hm fun b => ?_⟩
    have hwrite := Db.getElem?_write_deletes db c c id (MvccStore.toDelete (db c) p w) b
    simpa using hwrite
  others c' hne := by
    apply Db.write_of_forall_cf_ne
    intro op hop heq
    obtain ⟨k, -, rfl⟩ := List.mem_map.mp hop
    exact hne heq.symm

/-- The two ways a collection of the store goes. -/
theorem gcBefore_cases {s : Session} (h : s.Stored K) (cfName : String) (p : Bytes) (w : UInt64) :
    s.gcBefore cfName p w = s ∨
    ∃ c db', CollectedIn c p w s.manager.db db' ∧
      s.gcBefore cfName p w = { s with manager := { s.manager with db := db' } } := by
  cases hc : cfHandle cfName with
  | none =>
    left
    simp [gcBefore, MvccStore.gcBefore, mvccCf, hc, bind, Except.bind]
  | some c =>
    right
    refine ⟨c, _, collectedIn_gcBefore (h.allVersioned c) p w, ?_⟩
    simp [gcBefore, MvccStore.gcBefore, mvccCf, hc, bind, Except.bind, pure, Except.pure]

theorem Shows.collected {c : ColumnFamily} {p : Bytes} {w t : UInt64} {db db' : Db}
    {state : String × Bytes → Option Bytes} (h : Shows K db t state) (hdb : CollectedIn c p w db db')
    (hw : w ≤ t) : Shows K db' t state := by
  intro c' k hk
  obtain ⟨r, hr, hstate⟩ := h c' k hk
  by_cases hc : c' = c
  · subst hc
    obtain ⟨n, hcollected⟩ := hdb.collected
    exact ⟨r, readsAt_collected hcollected hw hr, hstate⟩
  · exact ⟨r, by rwa [hdb.others c' hc], hstate⟩

theorem Stored.collected {s : Session} {c : ColumnFamily} {p : Bytes} {w : UInt64} {db' : Db}
    (h : s.Stored K) (hdb : CollectedIn c p w s.manager.db db') :
    Stored K { s with manager := { s.manager with db := db' } } := by
  intro c' b hb
  apply h c' b
  by_cases hc : c' = c
  · subst hc
    obtain ⟨n, hcollected⟩ := hdb.collected
    rcases hcollected.kept b with heq | hnone
    · rwa [← heq]
    · rw [hnone] at hb
      cases hb
  · rwa [← hdb.others c' hc]

/-- Sessions still refine snapshot isolation after a collection in their past. -/
theorem Refines.gcBefore {s : Session} (h : Refines K s) {w : UInt64} (hw : s.Past w)
    (cfName : String) (p : Bytes) : Refines K (s.gcBefore cfName p w) := by
  rcases gcBefore_cases h.stored cfName p w with hsame | ⟨c, db', hdb, hsame⟩
  · rwa [hsame]
  · have hpred := toNat_pred h.clocked.pos
    have hcounter : w ≤ s.manager.oracle.counter - 1 := by
      have hlt := UInt64.lt_iff_toNat_lt.mp hw.counter
      rw [UInt64.le_iff_toNat_le]
      omega
    rw [hsame]
    refine ⟨⟨h.clocked.pos, h.clocked.ahead⟩, h.stored.collected hdb, ?_, h.length, ?_⟩
    · exact h.committed.collected hdb hcounter
    · intro i tx htx
      obtain ⟨t, ht, htR⟩ := h.txs i tx htx
      refine ⟨t, ht, htR.writes, htR.uses, fun hact => ?_⟩
      exact (htR.snapshot hact).collected hdb (hw.snapshots tx (List.mem_of_getElem? htx) hact)

theorem Refines.gcCommittedWrites {s : Session} (h : Refines K s) (w : UInt64) :
    Refines K { s with manager := s.manager.gcCommittedWrites w } :=
  ⟨⟨h.clocked.pos, h.clocked.ahead⟩, h.stored, h.committed, h.length, h.txs⟩

/-! ## A session that collects and one that does not -/

/-- Two tables of commits say the same of everything later than `t`. -/
def AgreeAfter (t : UInt64) (table table' : OrderedMap UInt64 (List (String × Bytes))) : Prop :=
  ∀ ts, t < ts → table[ts]? = table'[ts]?

/-- The conflict check only looks at commits later than the snapshot. -/
theorem conflicts_eq {m m' : TransactionManager} {tx : Transaction}
    (h : AgreeAfter tx.snapshotTs m.committedWrites m'.committedWrites) :
    m.conflicts tx = m'.conflicts tx := by
  have hone : ∀ {m m' : TransactionManager},
      AgreeAfter tx.snapshotTs m.committedWrites m'.committedWrites →
      m.conflicts tx = true → m'.conflicts tx = true := by
    intro m m' h hconf
    simp only [TransactionManager.conflicts, Bool.and_eq_true, List.any_eq_true] at hconf ⊢
    obtain ⟨hne, ⟨ts, keys⟩, hmem, hlt, hkeys⟩ := hconf
    refine ⟨hne, (ts, keys), ?_, hlt, hkeys⟩
    rw [OrderedMap.mem_toList] at hmem ⊢
    rw [← h ts (of_decide_eq_true hlt)]
    exact hmem
  rw [Bool.eq_iff_iff]
  exact ⟨hone h, hone fun ts hts => (h ts hts).symm⟩

/-- No record is later than the counter. -/
def Recent (m : TransactionManager) : Prop :=
  ∀ ts, (m.committedWrites[ts]?).isSome → ts < m.oracle.counter

/-- To their clients the sessions are the same, and for every open transaction the tables of commits
are. -/
structure Agrees (K : String → Bytes → Prop) (s u : Session) : Prop where
  refines : Refines K s
  plain : Refines K u
  txs : u.txs = s.txs
  history : u.history = s.history
  oracle : u.manager.oracle = s.manager.oracle
  recent : Recent s.manager ∧ Recent u.manager
  records : ∀ tx ∈ s.txs, tx.state = .active →
    AgreeAfter tx.snapshotTs s.manager.committedWrites u.manager.committedWrites

/-- Steps that leave both tables alone. -/
theorem Agrees.of_frame {s u s' u' : Session} (h : Agrees K s u) (hs : Refines K s')
    (hu : Refines K u') (htxs : u'.txs = s'.txs) (hhistory : u'.history = s'.history)
    (horacle : u'.manager.oracle = s'.manager.oracle)
    (hcounter : s.manager.oracle.counter ≤ s'.manager.oracle.counter)
    (htable : s'.manager.committedWrites = s.manager.committedWrites)
    (htable' : u'.manager.committedWrites = u.manager.committedWrites)
    (hopen : ∀ tx ∈ s'.txs, tx.state = .active →
      (∃ tx₀ ∈ s.txs, tx₀.state = .active ∧ tx₀.snapshotTs = tx.snapshotTs) ∨
        ∀ c < s.manager.oracle.counter, c ≤ tx.snapshotTs) : Agrees K s' u' := by
  refine ⟨hs, hu, htxs, hhistory, horacle, ⟨?_, ?_⟩, ?_⟩
  · intro ts hts
    rw [htable] at hts
    exact lt_of_lt_of_le (h.recent.1 ts hts) hcounter
  · intro ts hts
    rw [htable'] at hts
    rw [horacle]
    exact lt_of_lt_of_le (h.oracle ▸ h.recent.2 ts hts) hcounter
  · intro tx htx hact ts hts
    rw [htable, htable']
    rcases hopen tx htx hact with ⟨tx₀, htx₀, hact₀, hsnap⟩ | hnew
    · exact h.records tx₀ htx₀ hact₀ ts (hsnap ▸ hts)
    · -- the transaction has just begun, and no commit is later than its snapshot
      have hnone : ¬ ts < s.manager.oracle.counter := fun hlt => absurd (hnew ts hlt) (not_le.mpr hts)
      have hs : s.manager.committedWrites[ts]? = none := by
        by_contra hne
        exact hnone (h.recent.1 ts (Option.isSome_iff_ne_none.mpr hne))
      have hu : u.manager.committedWrites[ts]? = none := by
        by_contra hne
        exact hnone (h.oracle ▸ h.recent.2 ts (Option.isSome_iff_ne_none.mpr hne))
      rw [hs, hu]

section Steps

variable {s u : Session} {o : Op}

theorem Agrees.timestampLeft (h : Agrees K s u) (hleft : s.TimestampLeft) : u.TimestampLeft := by
  rwa [TimestampLeft, h.oracle]

/-- An operation that only answers. -/
theorem Agrees.respond (h : Agrees K s u) (hs' : Refines K (s.step o)) (hu' : Refines K (u.step o))
    {r : Response} (hs : s.step o = s.respond o r) (hu : u.step o = u.respond o r) :
    Agrees K (s.step o) (u.step o) := by
  apply h.of_frame hs' hu'
  · rw [hs, hu]
    exact h.txs
  · rw [hs, hu, Session.respond, Session.respond, h.history]
  · rw [hs, hu]
    exact h.oracle
  · rw [hs]
    exact le_refl _
  · rw [hs]
    rfl
  · rw [hu]
    rfl
  · intro tx htx hact
    rw [hs] at htx
    exact .inl ⟨tx, htx, hact, rfl⟩

/-- An operation that replaces an open transaction. -/
theorem Agrees.set (h : Agrees K s u) (hs' : Refines K (s.step o)) (hu' : Refines K (u.step o))
    {r : Response} {i : Nat} {tx tx' : Transaction} (htx : s.txs[i]? = some tx)
    (hact : tx.state = .active) (hsnap : tx.snapshotTs = tx'.snapshotTs)
    (hs : s.step o = { s with txs := s.txs.set i tx' }.respond o r)
    (hu : u.step o = { u with txs := u.txs.set i tx' }.respond o r) :
    Agrees K (s.step o) (u.step o) := by
  apply h.of_frame hs' hu'
  · rw [hs, hu]
    exact congrArg (fun txs => txs.set i tx') h.txs
  · rw [hs, hu, Session.respond, Session.respond, h.history]
  · rw [hs, hu]
    exact h.oracle
  · rw [hs]
    exact le_refl _
  · rw [hs]
    rfl
  · rw [hu]
    rfl
  · intro tj htj hactj
    rw [hs] at htj
    obtain ⟨j, hj⟩ := List.mem_iff_getElem?.mp htj
    obtain ⟨tj₀, htj₀, hact₀, hsnap₀⟩ := open_of_set htx hact hj hsnap hactj
    exact .inl ⟨tj₀, List.mem_of_getElem? htj₀, hact₀, hsnap₀⟩

theorem Agrees.begin (h : Agrees K s u) (hs' : Refines K (s.step .begin))
    (hu' : Refines K (u.step .begin)) (hleft : s.TimestampLeft) :
    Agrees K (s.step .begin) (u.step .begin) := by
  have hsucc := toNat_succ hleft
  have hstep : ∀ v : Session, v.step .begin =
      { v with
        manager := { v.manager with oracle := v.manager.oracle.next.2 }
        txs := v.txs ++ [Transaction.new v.manager.oracle.counter (v.manager.oracle.counter - 1)]
        }.respond .begin .began := fun _ => rfl
  apply h.of_frame hs' hu'
  · simp only [hstep, Session.respond, h.txs, h.oracle]
  · simp only [hstep, Session.respond, h.history]
  · simp only [hstep, Session.respond, h.oracle]
  · show s.manager.oracle.counter ≤ s.manager.oracle.counter + 1
    rw [UInt64.le_iff_toNat_le]
    omega
  · rfl
  · rfl
  · intro tx htx hact
    rcases List.mem_append.mp htx with hold | hnew
    · exact .inl ⟨tx, hold, hact, rfl⟩
    · right
      obtain rfl := List.mem_singleton.mp hnew
      intro c hc
      rw [Transaction.new, UInt64.le_iff_toNat_le, toNat_pred h.refines.clocked.pos]
      rw [UInt64.lt_iff_toNat_lt] at hc
      omega

/-- A write is buffered in both sessions, or in neither. -/
theorem Agrees.buffer (h : Agrees K s u) (hs' : Refines K (s.step o)) (hu' : Refines K (u.step o))
    {i : Nat} {w : BufferedWrite}
    (hstep : ∀ v : Session, v.step o = match v.txs[i]? with
      | none => v.respond o .noTransaction
      | some tx => (v.update i (tx.buffer w)).respond o (.done ((tx.buffer w).map fun _ => ()))) :
    Agrees K (s.step o) (u.step o) := by
  have hs := hstep s
  have hu := hstep u
  rw [h.txs] at hu
  cases htx : s.txs[i]? with
  | none =>
    rw [htx] at hs hu
    exact h.respond hs' hu' hs hu
  | some tx =>
    rw [htx] at hs hu
    by_cases hact : tx.state = .active
    · have hbuffer : tx.buffer w = .ok { tx with writeSet := tx.writeSet ++ [w] } := by
        simp [Transaction.buffer, hact]
      simp only [hbuffer] at hs hu
      have hsnap : tx.snapshotTs = { tx with writeSet := tx.writeSet ++ [w] }.snapshotTs := rfl
      exact h.set hs' hu' htx hact hsnap hs hu
    · have hbuffer : tx.buffer w = .error .notActive := by simp [Transaction.buffer, hact]
      simp only [hbuffer] at hs hu
      exact h.respond hs' hu' hs hu

theorem Agrees.ideal (h : Agrees K s u) : u.ideal = s.ideal := by
  rw [Session.ideal, Session.ideal, h.history]

/-- An open transaction reads the same in both stores. -/
theorem Agrees.read (h : Agrees K s u) (hK : PrefixFree K) {i : Nat} {tx : Transaction}
    (htx : s.txs[i]? = some tx) {cfName : String} {key : Bytes} (hkey : K cfName key) :
    tx.get u.manager.db cfName key = tx.get s.manager.db cfName key := by
  by_cases hact : tx.state = .active
  · cases hc : cfHandle cfName with
    | none => simp [Transaction.get, MvccStore.getAt, mvccCf, hc, bind, Except.bind]
    | some c =>
      obtain ⟨t, ht, hread⟩ := h.refines.get_eq hK htx hact hc hkey
      obtain ⟨t', ht', hread'⟩ := h.plain.get_eq hK (h.txs ▸ htx) hact hc hkey
      rw [h.ideal, ht] at ht'
      cases ht'
      rw [hread, hread']
  · simp [Transaction.get, hact]

theorem Agrees.get (h : Agrees K s u) (hK : PrefixFree K) {i : Nat} {cfName : String} {key : Bytes}
    (hkey : K cfName key) (hs' : Refines K (s.step (.get i cfName key)))
    (hu' : Refines K (u.step (.get i cfName key))) :
    Agrees K (s.step (.get i cfName key)) (u.step (.get i cfName key)) := by
  have hstep : ∀ v : Session, v.txs = s.txs → v.step (.get i cfName key) = v.respond
      (.get i cfName key) (match s.txs[i]? with
        | none => .noTransaction
        | some tx => .read (tx.get v.manager.db cfName key)) := by
    intro v hv
    simp only [step, hv]
    cases s.txs[i]? <;> rfl
  apply h.respond hs' hu' (hstep s rfl)
  rw [hstep u h.txs]
  cases htx : s.txs[i]? with
  | none => rfl
  | some tx => simp only [h.read hK htx hkey]

theorem Agrees.rollback (h : Agrees K s u) {i : Nat} (hs' : Refines K (s.step (.rollback i)))
    (hu' : Refines K (u.step (.rollback i))) :
    Agrees K (s.step (.rollback i)) (u.step (.rollback i)) := by
  cases htx : s.txs[i]? with
  | none =>
    have hstep : ∀ v : Session, v.txs = s.txs →
        v.step (.rollback i) = v.respond (.rollback i) .noTransaction := by
      intro v hv
      simp [step, hv, htx]
    exact h.respond hs' hu' (hstep s rfl) (hstep u h.txs)
  | some tx =>
    by_cases hact : tx.state = .active
    · have hstep : ∀ v : Session, v.txs = s.txs → v.step (.rollback i) =
          { v with txs := v.txs.set i { tx with state := .rolledBack } }.respond (.rollback i)
            (.done (.ok ())) := by
        intro v hv
        simp [step, hv, htx, TransactionManager.rollback, hact, update, Except.map]
      have hsnap : tx.snapshotTs = { tx with state := TxState.rolledBack }.snapshotTs := rfl
      exact h.set hs' hu' htx hact hsnap (hstep s rfl) (hstep u h.txs)
    · have hstep : ∀ v : Session, v.txs = s.txs → v.step (.rollback i) =
          v.respond (.rollback i) (.done (.error .notActive)) := by
        intro v hv
        simp [step, hv, htx, TransactionManager.rollback, hact, update, Except.map]
      exact h.respond hs' hu' (hstep s rfl) (hstep u h.txs)

/-- What pruning drops is no record that another open transaction needs. -/
theorem getElem?_prune_of_keeps {i j : Nat} {tx tj : Transaction} {ts : UInt64}
    (hclock : s.Clocked) (hkeeps : s.KeepsOpenRecords (.commit i)) (htx : s.txs[i]? = some tx)
    (htj : s.txs[j]? = some tj) (hij : j ≠ i) (hact : tj.state = .active) (hts : tj.snapshotTs < ts) :
    (TransactionManager.prune (s.manager.committedWrites.insert s.manager.oracle.counter tx.writeKeys)
      s.manager.oracle.counter)[ts]? =
        (s.manager.committedWrites.insert s.manager.oracle.counter tx.writeKeys)[ts]? := by
  rw [TransactionManager.getElem?_prune, ite_eq_right_iff]
  intro hdrop
  by_cases hnew : s.manager.oracle.counter = ts
  · subst hnew
    exact absurd hdrop (TransactionManager.not_dropped_self hclock.pos)
  · rw [OrderedMap.getElem?_insert, if_neg hnew]
    cases hrec : s.manager.committedWrites[ts]? with
    | none => rfl
    | some keys =>
      have hle := hkeeps tx (by simp [htx]) (tj, j) (List.mem_zipIdx_iff_getElem?.mpr htj) hij hact
        (ts, keys) ((OrderedMap.mem_toList _).mpr hrec) hdrop
      exact absurd hts (not_lt.mpr hle)

theorem recent_prune {m : TransactionManager} (h : Recent m) (hleft : m.oracle.counter ≠ u64Max)
    (keys : List (String × Bytes)) {ts : UInt64}
    (hts : ((TransactionManager.prune (m.committedWrites.insert m.oracle.counter keys)
      m.oracle.counter)[ts]?).isSome) : ts < m.oracle.counter + 1 := by
  have hsucc := toNat_succ hleft
  rw [UInt64.lt_iff_toNat_lt, hsucc]
  rw [TransactionManager.getElem?_prune] at hts
  split at hts
  · cases hts
  · rw [OrderedMap.getElem?_insert] at hts
    split at hts
    · next hnew =>
      rw [← hnew]
      omega
    · have hlt := UInt64.lt_iff_toNat_lt.mp (h ts hts)
      omega

/-- A commit that goes through in both sessions. -/
theorem Agrees.commitOk (h : Agrees K s u) {i : Nat} (hs' : Refines K (s.step (.commit i)))
    (hu' : Refines K (u.step (.commit i))) (hleft : s.TimestampLeft)
    (hkeeps : s.KeepsOpenRecords (.commit i)) (hkeeps' : u.KeepsOpenRecords (.commit i))
    {tx : Transaction} {batch : WriteBatch} (htx : s.txs[i]? = some tx) (hact : tx.state = .active)
    (hconf : s.manager.conflicts tx = false)
    (hbatch : MvccStore.versionedBatch tx.writes s.manager.oracle.counter = .ok batch) :
    Agrees K (s.step (.commit i)) (u.step (.commit i)) := by
  have htx' : u.txs[i]? = some tx := h.txs ▸ htx
  have hconf' : u.manager.conflicts tx = false := by
    rw [← conflicts_eq (h.records tx (List.mem_of_getElem? htx) hact)]
    exact hconf
  have hsstep := step_commit htx hact hconf hbatch
  have hustep := step_commit htx' hact hconf' (by rw [h.oracle]; exact hbatch)
  refine ⟨hs', hu', ?_, ?_, ?_, ⟨?_, ?_⟩, ?_⟩
  · rw [hsstep, hustep, Session.respond, Session.respond, h.txs]
  · rw [hsstep, hustep, Session.respond, Session.respond, h.history, h.oracle]
  · simp only [hsstep, hustep, Session.respond, TransactionManager.afterCommit_oracle, h.oracle]
  · intro ts hts
    simp only [hsstep, Session.respond, TransactionManager.afterCommit_committedWrites,
      TransactionManager.afterCommit_oracle] at hts ⊢
    exact recent_prune h.recent.1 hleft _ hts
  · intro ts hts
    simp only [hustep, Session.respond, TransactionManager.afterCommit_committedWrites,
      TransactionManager.afterCommit_oracle] at hts ⊢
    exact recent_prune h.recent.2 (h.timestampLeft hleft) _ hts
  · intro tj htj hactj ts hts
    simp only [hsstep, hustep, Session.respond, TransactionManager.afterCommit_committedWrites] at htj ⊢
    obtain ⟨j, hj⟩ := List.mem_iff_getElem?.mp htj
    have hij : j ≠ i := by
      rintro rfl
      rw [List.getElem?_set_self (List.getElem?_eq_some_iff.mp htx).1] at hj
      cases hj
      cases hactj
    rw [List.getElem?_set_ne hij.symm] at hj
    rw [getElem?_prune_of_keeps h.refines.clocked hkeeps htx hj hij hactj hts,
      getElem?_prune_of_keeps h.plain.clocked hkeeps' htx' (h.txs ▸ hj) hij hactj hts, h.oracle,
      OrderedMap.getElem?_insert, OrderedMap.getElem?_insert,
      h.records tj (List.mem_of_getElem? hj) hactj ts hts]

/-- A commit that fails having drawn its timestamp. -/
theorem Agrees.spend (h : Agrees K s u) {i : Nat} (hs' : Refines K (s.step (.commit i)))
    (hu' : Refines K (u.step (.commit i))) (hleft : s.TimestampLeft) {tx : Transaction}
    {e : MvccError} (htx : s.txs[i]? = some tx) (hact : tx.state = .active)
    (hconf : s.manager.conflicts tx = false) (hconf' : u.manager.conflicts tx = false)
    (hbatch : MvccStore.versionedBatch tx.writes s.manager.oracle.counter = .error e) :
    Agrees K (s.step (.commit i)) (u.step (.commit i)) := by
  have hsucc := toNat_succ hleft
  have hstep : ∀ v : Session, v.txs = s.txs → v.manager.oracle = s.manager.oracle →
      v.manager.conflicts tx = false → v.step (.commit i) =
        { v with manager := { v.manager with oracle := v.manager.oracle.next.2 } }.respond
          (.commit i) (.committed (.error (.mvcc e))) := by
    intro v hv horacle hconf
    have hcommit : v.manager.commit tx =
        (.error (.mvcc e), tx, { v.manager with oracle := v.manager.oracle.next.2 }) := by
      rw [← horacle] at hbatch
      simp [TransactionManager.commit, hact, hconf, MvccStore.batchWriteAt, TimestampOracle.next,
        hbatch, bind, Except.bind]
    have htx' : v.txs[i]? = some tx := hv ▸ htx
    simp only [step, htx', hcommit, set_self_of_getElem? htx']
  have hs := hstep s rfl rfl hconf
  have hu := hstep u h.txs h.oracle hconf'
  apply h.of_frame hs' hu'
  · rw [hs, hu]
    exact h.txs
  · rw [hs, hu, Session.respond, Session.respond, h.history]
  · simp only [hs, hu, Session.respond, h.oracle]
  · rw [hs]
    show s.manager.oracle.counter ≤ s.manager.oracle.counter + 1
    rw [UInt64.le_iff_toNat_le]
    omega
  · rw [hs]
    rfl
  · rw [hu]
    rfl
  · intro tj htj hactj
    rw [hs] at htj
    exact .inl ⟨tj, htj, hactj, rfl⟩

theorem Agrees.commit (h : Agrees K s u) {i : Nat} (hs' : Refines K (s.step (.commit i)))
    (hu' : Refines K (u.step (.commit i))) (hleft : s.TimestampLeft)
    (hkeeps : s.KeepsOpenRecords (.commit i)) (hkeeps' : u.KeepsOpenRecords (.commit i)) :
    Agrees K (s.step (.commit i)) (u.step (.commit i)) := by
  cases htx : s.txs[i]? with
  | none =>
    have hstep : ∀ v : Session, v.txs = s.txs →
        v.step (.commit i) = v.respond (.commit i) .noTransaction := by
      intro v hv
      simp [step, hv, htx]
    exact h.respond hs' hu' (hstep s rfl) (hstep u h.txs)
  | some tx =>
    -- a refused commit puts the transaction back as it was
    have hrefused : ∀ e, s.manager.commit tx = (.error e, tx, s.manager) →
        u.manager.commit tx = (.error e, tx, u.manager) →
        Agrees K (s.step (.commit i)) (u.step (.commit i)) := by
      intro e hs hu
      apply h.respond (r := .committed (.error e)) hs' hu'
      · simp only [step, htx, hs, set_self_of_getElem? htx]
      · simp only [step, h.txs, htx, hu, set_self_of_getElem? htx]
        rw [← h.txs]
    by_cases hact : tx.state = .active
    · have hconf := conflicts_eq (h.records tx (List.mem_of_getElem? htx) hact)
      cases hsconf : s.manager.conflicts tx with
      | true =>
        have huconf : u.manager.conflicts tx = true := by rw [← hconf, hsconf]
        apply hrefused .writeConflict
        · simp [TransactionManager.commit, hact, hsconf]
        · simp [TransactionManager.commit, hact, huconf]
      | false =>
        have huconf : u.manager.conflicts tx = false := by rw [← hconf, hsconf]
        cases hbatch : MvccStore.versionedBatch tx.writes s.manager.oracle.counter with
        | ok batch => exact h.commitOk hs' hu' hleft hkeeps hkeeps' htx hact hsconf hbatch
        | error e => exact h.spend hs' hu' hleft htx hact hsconf huconf hbatch
    · apply hrefused .alreadyCommitted
      · simp [TransactionManager.commit, hact]
      · simp [TransactionManager.commit, hact]

theorem Agrees.op (h : Agrees K s u) (hK : PrefixFree K) (hok : s.Admits K (.op o))
    (hplain : u.KeepsOpenRecords o) : Agrees K (s.step o) (u.step o) := by
  obtain ⟨hleft, hkeeps, huses⟩ := hok
  have hs' := h.refines.step hK hleft huses
  have hu' := h.plain.step hK (h.timestampLeft hleft) huses
  cases o with
  | begin => exact h.begin hs' hu' hleft
  | get i cfName key => exact h.get hK huses hs' hu'
  | put i cfName key value =>
    apply h.buffer hs' hu' (i := i) (w := ⟨cfName, key, some value⟩)
    intro v
    cases hget : v.txs[i]? <;> simp [step, Transaction.put, hget]
  | delete i cfName key =>
    apply h.buffer hs' hu' (i := i) (w := ⟨cfName, key, none⟩)
    intro v
    cases hget : v.txs[i]? <;> simp [step, Transaction.delete, hget]
  | commit i => exact h.commit hs' hu' hleft hkeeps hplain
  | rollback i => exact h.rollback hs' hu'

theorem Agrees.gcBefore (h : Agrees K s u) {w : UInt64} (hw : s.Past w) (cfName : String)
    (p : Bytes) : Agrees K (s.gcBefore cfName p w) u := by
  have href := h.refines.gcBefore hw cfName p
  rcases gcBefore_cases h.refines.stored cfName p w with hsame | ⟨c, db', -, hsame⟩
  · rwa [hsame]
  · rw [hsame] at href ⊢
    exact ⟨href, h.plain, h.txs, h.history, h.oracle, h.recent, h.records⟩

theorem Agrees.gcCommittedWrites (h : Agrees K s u) {w : UInt64} (hw : s.Past w) :
    Agrees K { s with manager := s.manager.gcCommittedWrites w } u := by
  have hget : ∀ ts, (s.manager.gcCommittedWrites w).committedWrites[ts]? =
      if w < ts then s.manager.committedWrites[ts]? else none := by
    intro ts
    rw [TransactionManager.gcCommittedWrites, Std.ExtTreeMap.getElem?_filter']
    by_cases hts : w < ts
    · cases s.manager.committedWrites[ts]? <;> simp [hts]
    · cases s.manager.committedWrites[ts]? <;> simp [hts]
  refine ⟨h.refines.gcCommittedWrites w, h.plain, h.txs, h.history, h.oracle, ⟨?_, h.recent.2⟩, ?_⟩
  · intro ts hts
    rw [hget] at hts
    split at hts
    · exact h.recent.1 ts hts
    · cases hts
  · intro tx htx hact ts hts
    rw [hget, if_pos (lt_of_le_of_lt (hw.snapshots tx htx hact) hts)]
    exact h.records tx htx hact ts hts

theorem Agrees.run (h : Agrees K s u) (hK : PrefixFree K) {calls : List Call}
    (hok : Run.Each call (Admits K) s calls)
    (hplain : Run.Each step KeepsOpenRecords u (calls.filterMap Call.op?)) :
    Agrees K (Run.exec call s calls) (u.run (calls.filterMap Call.op?)) := by
  induction calls generalizing s u with
  | nil => exact h
  | cons c calls ih =>
    obtain ⟨hc, hok⟩ := hok
    cases c with
    | op o => exact ih (h.op hK hc hplain.1) hok hplain.2
    | gcBefore cfName p w => exact ih (h.gcBefore hc cfName p) hok hplain
    | gcCommittedWrites w => exact ih (h.gcCommittedWrites hc) hok hplain

end Steps

end Session

end Synaptica.Tx
