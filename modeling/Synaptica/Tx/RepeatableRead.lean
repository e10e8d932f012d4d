import Synaptica.Tx.Interleaving

/-!
# Repeatable reads under interleaving

A transaction that reads a key twice should read the same value twice, whatever other threads do in
between. The timestamps make this work as long as every version at or below a snapshot is in the
store when the snapshot is taken. Between drawing its timestamp and writing its batch, a commit
breaks this: a transaction that begins there has a snapshot which covers the timestamp, and the
version turns up later.

* `BeginsClear` — a transaction does not begin while a commit of the key is between the two steps.
* `Unobstructed` — no entry is written that gets in the way of the walk for the key.
* `repeatableRead` — then reads repeat.
* `repeatableRead_phantom` — six steps of two transactions after which they do not.
-/

namespace Synaptica.Tx

open Storage TransactionManager

namespace Machine

/-- When transaction `i` begins, no commit that writes the key has drawn its timestamp but not
written yet. -/
def BeginsClear (i : Nat) (cfName : String) (k : Bytes) (m : Machine) (a : Action) : Prop :=
  a = .begin → m.threads.length = i →
    ∀ th ∈ m.threads, th.phase.pending.isSome → (cfName, k) ∉ th.tx.writeKeys

/-- The step writes nothing that the walk for `k` at `snapshotTs` would trip over: no other key's
version that starts with `k`, and no oracle record that does. -/
def Unobstructed (snapshotTs : UInt64) (cfName : String) (k : Bytes) (m : Machine) (a : Action) :
    Prop :=
  ∀ j ∈ a.advanced, ∀ th ∈ m.threads[j]?,
    (∀ ts ∈ th.phase.pending, ∀ w ∈ th.tx.writeSet, w.cfName = cfName → w.key ≠ k →
      ¬ k <+: encodeVersionedKey w.key ts) ∧
    (th.phase.persisting → cfName = ColumnFamily.default.name →
      UnseenByGet k snapshotTs TimestampOracle.tsOracleKey)

instance (i : Nat) (cfName : String) (k : Bytes) (m : Machine) (a : Action) :
    Decidable (BeginsClear i cfName k m a) := inferInstanceAs (Decidable (_ → _))

instance (snapshotTs : UInt64) (cfName : String) (k : Bytes) (m : Machine) (a : Action) :
    Decidable (Unobstructed snapshotTs cfName k m a) :=
  -- not the instance that runs through all timestamps
  have (th : Thread) : Decidable (∀ ts ∈ th.phase.pending, ∀ w ∈ th.tx.writeSet,
      w.cfName = cfName → w.key ≠ k → ¬ k <+: encodeVersionedKey w.key ts) :=
    Option.decidableForallMem _
  inferInstanceAs (Decidable (∀ j ∈ a.advanced, ∀ th ∈ m.threads[j]?, _ ∧ _))

/-! ## Invariants -/

/-- Every entry is long enough to carry a timestamp. -/
def Stamped (m : Machine) : Prop := ∀ c, AllVersioned (m.manager.db c)

theorem stamped_restart {db : Db} (h : ∀ c, AllVersioned (db c)) : (restart db).Stamped := h

theorem Stamped.step {m : Machine} (h : m.Stamped) (a : Action) : (m.step a).Stamped := by
  generalize hm' : m.step a = m'
  have hmove : Move m a m' := hm' ▸ m.step_move a
  intro c
  cases hmove with
  | stay | begin | draw => exact h c
  | silent _ hdb => exact hdb ▸ h c
  | @write i tx ts batch hth hbatch =>
    exact (h c).write fun op hop => (versionedBatch_mem hbatch hop).1
  | @persist i tx counter hth =>
    refine (h c).write fun op hop => ?_
    obtain rfl := List.mem_singleton.mp hop
    show 8 ≤ TimestampOracle.tsOracleKey.length
    decide

/-- A transaction keeps its place and its snapshot. -/
theorem snapshot_step {m : Machine} {i : Nat} {th : Thread} (hth : m.threads[i]? = some th)
    (a : Action) :
    ∃ th', (m.step a).threads[i]? = some th' ∧ th'.tx.snapshotTs = th.tx.snapshotTs := by
  have hlt := (List.getElem?_eq_some_iff.mp hth).1
  -- replacing a thread by one with the same snapshot
  have hset : ∀ {j : Nat} {u u' : Thread}, m.threads[j]? = some u →
      u'.tx.snapshotTs = u.tx.snapshotTs →
      ∃ th', (m.threads.set j u')[i]? = some th' ∧ th'.tx.snapshotTs = th.tx.snapshotTs := by
    intro j u u' hu hsnap
    by_cases hji : j = i
    · subst hji
      obtain rfl : u = th := Option.some.inj (hu.symm.trans hth)
      exact ⟨u', List.getElem?_set_self hlt, hsnap⟩
    · exact ⟨th, by rw [List.getElem?_set_ne hji, hth], rfl⟩
  generalize hm' : m.step a = m'
  have hmove : Move m a m' := hm' ▸ m.step_move a
  cases hmove with
  | stay => exact ⟨th, hth, rfl⟩
  | begin => exact ⟨th, by rw [List.getElem?_append_left hlt, hth], rfl⟩
  | silent hu _ _ _ hthreads hsnap => exact hthreads ▸ hset hu hsnap
  | draw hu => exact hset hu rfl
  | write hu => exact hset hu rfl
  | persist hu => exact hset hu rfl

/-- The snapshot of transaction `i` is below the counter and below every commit of the key that has
yet to write. -/
structure Covered (i : Nat) (cfName : String) (k : Bytes) (m : Machine) : Prop where
  pos : 0 < m.manager.oracle.counter.toNat
  stamped : m.Stamped
  ahead : ∀ th, m.threads[i]? = some th → th.tx.snapshotTs < m.manager.oracle.counter
  pending : ∀ th, m.threads[i]? = some th → ∀ u ∈ m.threads, ∀ ts, u.phase = .drawn ts →
    (cfName, k) ∈ u.tx.writeKeys → th.tx.snapshotTs < ts

theorem covered_init (i : Nat) (cfName : String) (k : Bytes) : Covered i cfName k init where
  pos := by decide
  stamped := by
    intro c b hb
    simp [init, restart, TransactionManager.new, Db.empty] at hb
  ahead th hth := by simp [init, restart] at hth
  pending th hth := by simp [init, restart] at hth

/-- Moving a thread to another phase than `drawn` keeps the snapshot covered. -/
theorem Covered.of_set {i : Nat} {cfName : String} {k : Bytes} {m m' : Machine} {a : Action}
    (h : Covered i cfName k m) (hm' : m' = m.step a)
    (hcounter : m.manager.oracle.counter ≤ m'.manager.oracle.counter) {j : Nat} {u' : Thread}
    (hthreads : m'.threads = m.threads.set j u')
    (hdrawn : ∀ ts, u'.phase = .drawn ts → m.manager.oracle.counter ≤ ts) :
    Covered i cfName k m' := by
  have hsnap : ∀ th', m'.threads[i]? = some th' →
      ∃ th, m.threads[i]? = some th ∧ th'.tx.snapshotTs = th.tx.snapshotTs := by
    intro th' hth'
    have hlt : i < m.threads.length := by
      have := (List.getElem?_eq_some_iff.mp hth').1
      rwa [hthreads, List.length_set] at this
    obtain ⟨th'', hth'', heq⟩ := snapshot_step (List.getElem?_eq_getElem hlt) a
    rw [← hm', hth'] at hth''
    cases hth''
    exact ⟨_, List.getElem?_eq_getElem hlt, heq⟩
  refine ⟨lt_of_lt_of_le h.pos (UInt64.le_iff_toNat_le.mp hcounter), hm' ▸ h.stamped.step a,
    fun th' hth' => ?_, fun th' hth' u hu ts hts hkey => ?_⟩
  · obtain ⟨th, hth, heq⟩ := hsnap th' hth'
    rw [heq]
    exact lt_of_lt_of_le (h.ahead th hth) hcounter
  · obtain ⟨th, hth, heq⟩ := hsnap th' hth'
    rw [heq]
    rw [hthreads] at hu
    rcases List.mem_or_eq_of_mem_set hu with hu | rfl
    · exact h.pending th hth u hu ts hts hkey
    · exact lt_of_lt_of_le (h.ahead th hth) (hdrawn ts hts)

theorem Covered.step {i : Nat} {cfName : String} {k : Bytes} {m : Machine}
    (h : Covered i cfName k m) {a : Action} (hleft : m.TimestampLeft)
    (hclear : BeginsClear i cfName k m a) : Covered i cfName k (m.step a) := by
  have hsucc := Session.toNat_succ hleft
  have hle : m.manager.oracle.counter ≤ m.manager.oracle.counter + 1 := by
    rw [UInt64.le_iff_toNat_le]
    omega
  generalize hm' : m.step a = m'
  have hmove : Move m a m' := hm' ▸ m.step_move a
  cases hmove with
  | stay => exact h
  | begin =>
    refine ⟨by show 0 < (m.manager.oracle.counter + 1).toNat; omega, fun c => h.stamped c,
      fun th hth => ?_, fun th hth u hu ts hts hkey => ?_⟩
    · simp only [List.getElem?_append] at hth
      split at hth
      · exact lt_of_lt_of_le (h.ahead th hth) hle
      · rw [List.getElem?_singleton] at hth
        split at hth
        · cases hth
          show m.manager.oracle.counter - 1 < m.manager.oracle.counter + 1
          have := Session.toNat_pred h.pos
          rw [UInt64.lt_iff_toNat_lt]
          omega
        · cases hth
    · have hold : u ∈ m.threads := by
        rcases List.mem_append.mp hu with hu | hu
        · exact hu
        · obtain rfl := List.mem_singleton.mp hu
          cases hts
      simp only [List.getElem?_append] at hth
      split at hth
      · exact h.pending th hth u hold ts hts hkey
      · next hge =>
        rw [List.getElem?_singleton] at hth
        split at hth
        · next heq => exact absurd hkey (hclear rfl (by omega) u hold (by simp [hts, Phase.pending]))
        · cases hth
  | silent _ _ horacle _ hthreads _ hdrawn =>
    exact h.of_set hm'.symm (by rw [horacle]) hthreads fun ts hts => absurd hts (hdrawn ts)
  | draw =>
    refine h.of_set hm'.symm hle rfl fun ts hts => ?_
    cases hts
    exact le_refl _
  | write => exact h.of_set hm'.symm (le_refl _) rfl fun ts hts => by cases hts
  | persist => exact h.of_set hm'.symm (le_refl _) rfl fun ts hts => by cases hts

/-! ## Reads repeat -/

/-- One step leaves the read of a covered transaction alone. -/
theorem readAt_step {i : Nat} {cfName : String} {c : ColumnFamily} {k : Bytes} {m : Machine}
    (h : Covered i cfName k m) {th : Thread} (hth : m.threads[i]? = some th)
    (hc : cfHandle cfName = some c) {a : Action} (hun : Unobstructed th.tx.snapshotTs cfName k m a) :
    MvccStore.readAt ((m.step a).manager.db c) k th.tx.snapshotTs =
      MvccStore.readAt (m.manager.db c) k th.tx.snapshotTs := by
  have hstamped := h.stamped.step a
  have hname := name_of_cfHandle hc
  generalize hm' : m.step a = m' at hstamped ⊢
  have hmove : Move m a m' := hm' ▸ m.step_move a
  cases hmove with
  | stay | begin | draw => rfl
  | silent _ hdb => rw [hdb]
  | @write j tx ts batch hu hbatch =>
    refine MvccStore.readAt_write (h.stamped c) (hstamped c) fun op hop hcf => ?_
    obtain ⟨-, _, hmem, hcf', hkey⟩ := versionedBatch_mem hbatch hop
    obtain ⟨w, hw, rfl⟩ := List.mem_map.mp hmem
    have hwname : w.cfName = cfName := (name_of_cfHandle (hcf ▸ hcf')).symm.trans hname
    rw [hkey]
    by_cases hwk : w.key = k
    · right
      have hmem : (cfName, k) ∈ tx.writeKeys := List.mem_map.mpr ⟨w, hw, by rw [hwname, hwk]⟩
      have := h.pending th hth ⟨tx, .drawn ts⟩ (List.mem_of_getElem? hu) ts rfl hmem
      simpa [hwk] using this
    · exact .inl ((hun j rfl ⟨tx, .drawn ts⟩ hu).1 ts rfl w hw hwname hwk)
  | @persist j tx counter hu =>
    refine MvccStore.readAt_write (h.stamped c) (hstamped c) fun op hop hcf => ?_
    obtain rfl := List.mem_singleton.mp hop
    exact (hun j rfl ⟨tx, .loaded counter⟩ hu).2 rfl (by rw [← hname, ← hcf]; rfl)

/-- **Reads repeat.** Two reads of a key by a transaction that is active and has not written it
agree, if the transaction did not begin in the middle of a commit of that key and nothing that
obstructs its walk is written between the reads. -/
theorem repeatableRead (before between : List Action) (i : Nat) (cfName : String) (k : Bytes)
    (th th' : Thread)
    (hbefore : Run.Each step (fun m a => m.TimestampLeft ∧ BeginsClear i cfName k m a) init before)
    (hbetween : Run.Each step
      (fun m a => m.TimestampLeft ∧ Unobstructed th.tx.snapshotTs cfName k m a)
      (init.run before) between)
    (hth : (init.run before).threads[i]? = some th)
    (hth' : ((init.run before).run between).threads[i]? = some th')
    (hact : th.tx.state = .active) (hact' : th'.tx.state = .active)
    (hown : th.tx.ownWrite cfName k = none) (hown' : th'.tx.ownWrite cfName k = none) :
    th'.tx.get ((init.run before).run between).manager.db cfName k =
      th.tx.get (init.run before).manager.db cfName k := by
  have hcovered : Covered i cfName k (init.run before) :=
    Run.invariant (Covered i cfName k) (fun _ _ h hok => h.step hok.1 hok.2)
      (covered_init i cfName k) hbefore
  have hinv := Run.invariant
    (fun m => Covered i cfName k m ∧
      (∃ u, m.threads[i]? = some u ∧ u.tx.snapshotTs = th.tx.snapshotTs) ∧
      ∀ c, cfHandle cfName = some c →
        MvccStore.readAt (m.manager.db c) k th.tx.snapshotTs =
          MvccStore.readAt ((init.run before).manager.db c) k th.tx.snapshotTs)
    (fun m a ⟨hm, ⟨u, hu, hsnap⟩, hread⟩ ⟨hleft, hun⟩ => by
      have hi := (List.getElem?_eq_some_iff.mp hu).1
      -- the transaction has begun already
      refine ⟨hm.step hleft fun _ hlen => absurd hlen (by omega), ?_, fun c hc => ?_⟩
      · obtain ⟨u', hu', hsnap'⟩ := snapshot_step hu a
        exact ⟨u', hu', hsnap'.trans hsnap⟩
      · rw [← hsnap] at hun hread ⊢
        exact (readAt_step hm hu hc hun).trans (hread c hc))
    ⟨hcovered, ⟨th, hth, rfl⟩, fun _ _ => rfl⟩ hbetween
  obtain ⟨-, ⟨u, hu, hsnap⟩, hread⟩ := hinv
  obtain rfl : u = th' := Option.some.inj (hu.symm.trans hth')
  simp only [Transaction.get, hact, hact', hown, hown', hsnap, ne_eq, not_true, if_false]
  cases hc : cfHandle cfName with
  | none => simp [MvccStore.getAt, mvccCf, hc, bind, Except.bind]
  | some c =>
    simp [MvccStore.getAt, mvccCf, hc, bind, Except.bind, pure, Except.pure, hread c hc]

/-- A commit stopped between drawing its timestamp and writing, and a transaction beginning there. -/
def betweenDrawAndWrite : List Action :=
  [.begin, .put 0 "nodes" [1] [2], .advance 0, .advance 0, .advance 0, .begin]

/-- **A read that does not repeat.** Transaction 1 finds nothing, the commit writes, and transaction
1 finds the value. -/
theorem repeatableRead_phantom :
    ((init.run betweenDrawAndWrite).threads[1]?.map fun th =>
        th.tx.get (init.run betweenDrawAndWrite).manager.db "nodes" [1]) = some (.ok none) ∧
      (((init.run betweenDrawAndWrite).run [.advance 0]).threads[1]?.map fun th =>
        th.tx.get ((init.run betweenDrawAndWrite).run [.advance 0]).manager.db "nodes" [1]) =
          some (.ok (some [2])) := by
  decide

/-- Transaction 1 begins before the timestamp is drawn. -/
def beforeDraw : List Action := [.begin, .put 0 "nodes" [1] [2], .begin]

/-- The commit of transaction 0 up to its write. -/
def upToWrite : List Action := [.advance 0, .advance 0, .advance 0, .advance 0]

theorem repeatableRead_beforeDraw :
    (Transaction.new 2 1).get ((init.run beforeDraw).run upToWrite).manager.db "nodes" [1] =
      (Transaction.new 2 1).get (init.run beforeDraw).manager.db "nodes" [1] :=
  repeatableRead beforeDraw upToWrite 1 "nodes" [1] ⟨Transaction.new 2 1, .idle⟩
    ⟨Transaction.new 2 1, .idle⟩ (by decide) (by decide) (by decide)
    (by decide) rfl rfl rfl rfl

end Machine

end Synaptica.Tx
