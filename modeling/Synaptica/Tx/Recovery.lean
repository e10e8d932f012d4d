import Synaptica.Tx.Interleaving

/-!
# Timestamps across a crash

The oracle lives in memory. After a crash it is rebuilt from the record that `persist_timestamp`
wrote last, which happens only for commit timestamps divisible by a hundred, and after the batch of
that commit. Whatever was committed since then lies at or above the rebuilt counter.

A crash may strike after any step of a run; what survives is the store. The state after the crash
is `restart`.

* `MonotonicAfterRestart` — every commit timestamp drawn after the restart is above every version
  stored before it.
* `monotonic_iff_persisted` — this holds exactly when no stored version is above the counter the
  oracle restarts from.
* `restart_reissues` — one commit and a crash are enough to see a timestamp twice.
-/

namespace Synaptica.Tx

open Storage TransactionManager

namespace Machine

/-! ## Before the crash -/

/-- Timestamps in use are below the counter, and stored versions are in the store. -/
structure Sound (m : Machine) : Prop where
  drawn : ∀ th ∈ m.threads, ∀ ts, th.phase = .drawn ts → ts < m.manager.oracle.counter
  stored_lt : ∀ t ∈ m.stored, t < m.manager.oracle.counter
  stored_mem : ∀ t ∈ m.stored, ∃ c k, ((m.manager.db c)[encodeVersionedKey k t]?).isSome

theorem sound_restart (db : Db) : (restart db).Sound where
  drawn th hth := by simp [restart] at hth
  stored_lt t ht := by simp [restart] at ht
  stored_mem t ht := by simp [restart] at ht

/-- Batches of puts lose no entry. -/
theorem isSome_write {db : Db} {batch : WriteBatch} (h : ∀ op ∈ batch, op.result.isSome)
    {c : ColumnFamily} {b : Bytes} (hb : ((db c)[b]?).isSome) :
    ((db.write batch c)[b]?).isSome := by
  rw [Db.getElem?_write]
  split
  · next op hop => exact h op (List.mem_reverse.mp (List.mem_of_find?_eq_some hop))
  · exact hb

/-- A commit that wrote something left a version at its timestamp. -/
theorem isSome_versionedBatch {db : Db} {writes : List (String × Bytes × Option Bytes)} {t : UInt64}
    {batch : WriteBatch} (h : MvccStore.versionedBatch writes t = .ok batch) (hne : writes ≠ []) :
    ∃ c k, ((db.write batch c)[encodeVersionedKey k t]?).isSome := by
  obtain ⟨ws, hws, rfl⟩ := versionedBatch_eq_ok h
  obtain ⟨w, rest, rfl⟩ := List.exists_cons_of_ne_nil hne
  obtain ⟨cfName, key, value⟩ := w
  simp only [MvccOp.resolve, Option.bind_eq_bind, Option.bind_eq_some_iff, Option.pure_def,
    Option.some.injEq] at hws
  obtain ⟨c, -, ws', -, rfl⟩ := hws
  refine ⟨c, key, ?_⟩
  rw [List.map_cons, Db.write_cons]
  refine isSome_write (fun op hop => ?_) ?_
  · obtain ⟨v, -, rfl⟩ := List.mem_map.mp hop
    rfl
  · rw [Db.getElem?_apply, if_pos ⟨rfl, rfl⟩]
    rfl

/-- Moving a thread and keeping the store. -/
theorem Sound.of_set {m m' : Machine} (h : m.Sound)
    (hcounter : m.manager.oracle.counter ≤ m'.manager.oracle.counter)
    (hdb : m'.manager.db = m.manager.db) (hstored : m'.stored = m.stored) {j : Nat} {u' : Thread}
    (hthreads : m'.threads = m.threads.set j u')
    (hdrawn : ∀ ts, u'.phase = .drawn ts → ts < m'.manager.oracle.counter) : m'.Sound where
  drawn th hth ts hts := by
    rw [hthreads] at hth
    rcases List.mem_or_eq_of_mem_set hth with hth | rfl
    · exact lt_of_lt_of_le (h.drawn th hth ts hts) hcounter
    · exact hdrawn ts hts
  stored_lt t ht := lt_of_lt_of_le (h.stored_lt t (hstored ▸ ht)) hcounter
  stored_mem t ht := hdb ▸ h.stored_mem t (hstored ▸ ht)

theorem Sound.step {m : Machine} (h : m.Sound) (hleft : m.TimestampLeft) (a : Action) :
    (m.step a).Sound := by
  have hsucc := Session.toNat_succ hleft
  have hlt : m.manager.oracle.counter < m.manager.oracle.counter + 1 := by
    rw [UInt64.lt_iff_toNat_lt]
    omega
  generalize hm' : m.step a = m'
  have hmove : Move m a m' := hm' ▸ m.step_move a
  cases hmove with
  | stay => exact h
  | begin =>
    refine ⟨fun th hth ts hts => ?_, fun t ht => (h.stored_lt t ht).trans hlt, h.stored_mem⟩
    rcases List.mem_append.mp hth with hth | hth
    · exact (h.drawn th hth ts hts).trans hlt
    · obtain rfl := List.mem_singleton.mp hth
      cases hts
  | silent _ hdb horacle hstored hthreads _ hdrawn =>
    exact h.of_set (by rw [horacle]) hdb hstored hthreads fun ts hts => absurd hts (hdrawn ts)
  | draw =>
    refine h.of_set hlt.le rfl rfl rfl fun ts hts => ?_
    cases hts
    exact hlt
  | @write i tx ts batch hth hbatch =>
    have hts : ts < m.manager.oracle.counter :=
      h.drawn ⟨tx, .drawn ts⟩ (List.mem_of_getElem? hth) ts rfl
    have hkeep : ∀ t ∈ m.stored,
        ∃ c k, ((m.manager.db.write batch c)[encodeVersionedKey k t]?).isSome := by
      intro t ht
      obtain ⟨c, k, hk⟩ := h.stored_mem t ht
      refine ⟨c, k, isSome_write (fun op hop => ?_) hk⟩
      obtain ⟨ws, -, rfl⟩ := versionedBatch_eq_ok hbatch
      obtain ⟨v, -, rfl⟩ := List.mem_map.mp hop
      rfl
    refine ⟨fun th hmem ts' hts' => ?_, fun t ht => ?_, fun t ht => ?_⟩
    · rcases List.mem_or_eq_of_mem_set hmem with hmem | rfl
      · exact h.drawn th hmem ts' hts'
      · cases hts'
    · simp only [setThread_stored] at ht
      split at ht
      · exact h.stored_lt t ht
      · rcases List.mem_cons.mp ht with rfl | ht
        · exact hts
        · exact h.stored_lt t ht
    · simp only [setThread_stored] at ht
      split at ht
      · exact hkeep t ht
      · next hne =>
        rcases List.mem_cons.mp ht with rfl | ht
        · exact isSome_versionedBatch hbatch fun hnil => hne (List.map_eq_nil_iff.mp hnil)
        · exact hkeep t ht
  | @persist i tx counter hth =>
    refine ⟨fun th hmem ts' hts' => ?_, h.stored_lt, fun t ht => ?_⟩
    · rcases List.mem_or_eq_of_mem_set hmem with hmem | rfl
      · exact h.drawn th hmem ts' hts'
      · cases hts'
    · obtain ⟨c, k, hk⟩ := h.stored_mem t ht
      refine ⟨c, k, isSome_write (fun op hop => ?_) hk⟩
      obtain rfl := List.mem_singleton.mp hop
      rfl

/-! ## After the restart -/

/-- The counter has not moved back, and no commit has a timestamp at or below where it started. -/
structure Restarted (start : UInt64) (m : Machine) : Prop where
  start_le : start ≤ m.manager.oracle.counter
  start_lt : m.threads ≠ [] → start < m.manager.oracle.counter
  commits : ∀ th ∈ m.threads, ∀ ts ∈ th.phase.commitTs, start < ts

theorem restarted_restart (db : Db) :
    Restarted (TimestampOracle.loadFromDb db).counter (restart db) where
  start_le := le_refl _
  start_lt h := absurd rfl h
  commits th hth := by simp [restart] at hth

theorem Restarted.of_set {start : UInt64} {m m' : Machine} (h : Restarted start m)
    (hcounter : m.manager.oracle.counter ≤ m'.manager.oracle.counter) {j : Nat} {u u' : Thread}
    (hu : m.threads[j]? = some u) (hthreads : m'.threads = m.threads.set j u')
    (hcommits : ∀ ts ∈ u'.phase.commitTs, u.phase.commitTs = some ts ∨
      ts = m.manager.oracle.counter) : Restarted start m' := by
  have hmem := List.mem_of_getElem? hu
  have hlt : start < m.manager.oracle.counter := h.start_lt (List.ne_nil_of_mem hmem)
  refine ⟨h.start_le.trans hcounter, fun _ => lt_of_lt_of_le hlt hcounter, fun th hth ts hts => ?_⟩
  rw [hthreads] at hth
  rcases List.mem_or_eq_of_mem_set hth with hth | rfl
  · exact h.commits th hth ts hts
  · rcases hcommits ts hts with hold | rfl
    · exact h.commits u hmem ts hold
    · exact hlt

theorem Restarted.step {start : UInt64} {m : Machine} (h : Restarted start m)
    (hleft : m.TimestampLeft) (a : Action) : Restarted start (m.step a) := by
  have hsucc := Session.toNat_succ hleft
  have hlt : m.manager.oracle.counter < m.manager.oracle.counter + 1 := by
    rw [UInt64.lt_iff_toNat_lt]
    omega
  generalize hm' : m.step a = m'
  have hmove : Move m a m' := hm' ▸ m.step_move a
  cases hmove with
  | stay => exact h
  | begin =>
    refine ⟨h.start_le.trans hlt.le, fun _ => lt_of_le_of_lt h.start_le hlt,
      fun th hth ts hts => ?_⟩
    rcases List.mem_append.mp hth with hth | hth
    · exact h.commits th hth ts hts
    · obtain rfl := List.mem_singleton.mp hth
      cases hts
  | silent hu _ horacle _ hthreads _ _ hts =>
    exact h.of_set (by rw [horacle]) hu hthreads fun ts hmem => .inl (hts ts hmem)
  | draw hu =>
    refine h.of_set hlt.le hu rfl fun ts hmem => .inr ?_
    cases hmem
    rfl
  | write hu =>
    refine h.of_set (le_refl _) hu rfl fun ts hmem => .inl ?_
    cases hmem
    rfl
  | persist hu => exact h.of_set (le_refl _) hu rfl fun ts hmem => by cases hmem

/-- Every commit timestamp drawn after a crash and restart is above every version stored before. -/
def MonotonicAfterRestart (m : Machine) : Prop :=
  ∀ after : List Action,
    Run.Each step (fun m _ => m.TimestampLeft) (restart m.manager.db) after →
    ∀ th ∈ ((restart m.manager.db).run after).threads, ∀ ts ∈ th.phase.commitTs,
      ∀ t ∈ m.stored, t < ts

/-- The first commit after a restart. -/
def firstCommit : List Action := [.begin, .advance 0, .advance 0, .advance 0]

/-- It draws the timestamp after the one the oracle restarts from. -/
theorem run_firstCommit (db : Db) :
    ((restart db).run firstCommit).threads =
      [⟨Transaction.new (TimestampOracle.loadFromDb db).counter
          ((TimestampOracle.loadFromDb db).counter - 1),
        .drawn ((TimestampOracle.loadFromDb db).counter + 1)⟩] := by
  rfl

theorem each_firstCommit {db : Db} (h : (TimestampOracle.loadFromDb db).counter ≠ u64Max)
    (h' : (TimestampOracle.loadFromDb db).counter + 1 ≠ u64Max) :
    Run.Each step (fun m _ => m.TimestampLeft) (restart db) firstCommit :=
  ⟨h, h', h', h', trivial⟩

/-- **Monotonic exactly when the record is recent enough**: no stored version is above the counter
the oracle restarts from. -/
theorem monotonic_iff_persisted (before : List Action)
    (hleft : Run.Each step (fun m _ => m.TimestampLeft) init before) :
    MonotonicAfterRestart (init.run before) ↔
      ∀ t ∈ (init.run before).stored,
        t ≤ (TimestampOracle.loadFromDb (init.run before).manager.db).counter := by
  have hsound : (init.run before).Sound :=
    Run.invariant Sound (fun _ a h hok => h.step hok a) (sound_restart _) hleft
  generalize init.run before = m at hsound
  constructor
  · intro hmono t ht
    generalize hstart : (TimestampOracle.loadFromDb m.manager.db).counter = start
    have hmax : t.toNat < 2 ^ 64 - 1 := by
      have := UInt64.lt_iff_toNat_lt.mp (hsound.stored_lt t ht)
      have := UInt64.toNat_lt m.manager.oracle.counter
      omega
    have hu64 : u64Max.toNat = 2 ^ 64 - 1 := rfl
    rw [UInt64.le_iff_toNat_le]
    by_cases hs : start = u64Max
    · rw [hs, hu64]
      omega
    by_cases hs' : start + 1 = u64Max
    · have := Session.toNat_succ hs
      rw [hs', hu64] at this
      omega
    -- otherwise there is room for one more commit, and it must come out above `t`
    subst hstart
    have hlt := hmono firstCommit (each_firstCommit hs hs') _
      (by rw [run_firstCommit]; exact List.mem_singleton_self _) _ rfl t ht
    rw [UInt64.lt_iff_toNat_lt, Session.toNat_succ hs] at hlt
    omega
  · intro hle after hafter th hth ts hts t ht
    have hrestarted : Restarted (TimestampOracle.loadFromDb m.manager.db).counter
        ((restart m.manager.db).run after) :=
      Run.invariant (Restarted _) (fun _ a h hok => h.step hok a) (restarted_restart _)
        hafter
    exact lt_of_le_of_lt (hle t ht) (hrestarted.commits th hth ts hts)

/-- One transaction writes and commits. -/
def oneCommit : List Action :=
  [.begin, .put 0 "nodes" [1] [2], .advance 0, .advance 0, .advance 0, .advance 0, .advance 0,
    .advance 0, .advance 0]

/-- **A timestamp issued twice.** The only commit before the crash is at timestamp 2, and so is the
first commit after it. -/
theorem restart_reissues :
    Run.Each step (fun m _ => m.TimestampLeft) init oneCommit ∧
      (init.run oneCommit).stored = [2] ∧
      ((restart (init.run oneCommit).manager.db).run firstCommit).threads.map
        (fun th => th.phase) = [.drawn 2] ∧
      ¬ MonotonicAfterRestart (init.run oneCommit) := by
  have hstored : (init.run oneCommit).stored = [2] := by decide
  have hphase : ((restart (init.run oneCommit).manager.db).run firstCommit).threads.map
      (fun th => th.phase) = [.drawn 2] := by decide
  refine ⟨by decide, hstored, hphase, fun hmono => ?_⟩
  obtain ⟨th, hth, hph⟩ : ∃ th ∈ ((restart (init.run oneCommit).manager.db).run
      firstCommit).threads, th.phase = .drawn 2 := by
    rw [← List.mem_map, hphase]
    exact List.mem_singleton_self _
  have := hmono firstCommit (by decide) th hth 2 (by rw [hph]; rfl) 2 (by rw [hstored]; decide)
  exact absurd this (lt_irrefl _)

/-- The hundredth timestamp goes to a commit, which persists the counter. -/
def hundredth : List Action :=
  List.replicate 99 .begin ++ [.put 0 "nodes" [1] [2]] ++ List.replicate 8 (.advance 0)

theorem monotonic_hundredth :
    (init.run hundredth).stored = [100] ∧ MonotonicAfterRestart (init.run hundredth) := by
  have hstored : (init.run hundredth).stored = [100] := by decide +kernel
  refine ⟨hstored, (monotonic_iff_persisted hundredth (by decide +kernel)).mpr ?_⟩
  rw [hstored]
  have hcounter : (TimestampOracle.loadFromDb (init.run hundredth).manager.db).counter = 102 := by
    decide +kernel
  rw [hcounter]
  simp

end Machine

end Synaptica.Tx
