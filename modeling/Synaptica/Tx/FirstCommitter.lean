import Synaptica.Tx.Steps

/-!
# First committer wins

Two transactions that both committed and both wrote a key should not have been concurrent: one of
them began after the other committed. The conflict check of `commit` only knows the commits still
in its table, and the table is pruned by a fixed distance from the current timestamp, whoever is
still open.

* `KeepsOpenRecords` — the condition under which a step prunes nothing that an open transaction
  still needs.
* `firstCommitter_of_keepsOpenRecords` — in runs whose steps all meet it, the first committer wins.
* `firstCommitter_lostUpdate` — a run of twenty thousand steps in which an open transaction outlives
  the record of a conflicting commit, and overwrites it.
-/

namespace Synaptica.Tx

open Storage

/-! ## Pruning and the conflict check -/

namespace TransactionManager

/-- Does pruning the table after the commit at `commitTs` drop the record at `ts`? -/
def Dropped (table : OrderedMap UInt64 (List (String × Bytes))) (commitTs ts : UInt64) : Prop :=
  gcThreshold < table.size ∧ ts ≤ saturatingSub commitTs (UInt64.ofNat gcThreshold)

instance (table : OrderedMap UInt64 (List (String × Bytes))) (commitTs ts : UInt64) :
    Decidable (Dropped table commitTs ts) := inferInstanceAs (Decidable (_ ∧ _))

theorem getElem?_prune (table : OrderedMap UInt64 (List (String × Bytes))) (commitTs ts : UInt64) :
    (prune table commitTs)[ts]? = if Dropped table commitTs ts then none else table[ts]? := by
  unfold prune
  by_cases hsize : gcThreshold < table.size
  · rw [if_pos hsize, Std.ExtTreeMap.getElem?_filter']
    by_cases hts : ts ≤ saturatingSub commitTs (UInt64.ofNat gcThreshold)
    · rw [if_pos ⟨hsize, hts⟩]
      simp [not_lt.mpr hts]
    · rw [if_neg fun h => hts h.2]
      cases table[ts]? with
      | none => rfl
      | some keys => simp [not_le.mp hts]
  · rw [if_neg hsize, if_neg fun h => hsize h.1]

/-- A commit's own record is never dropped. -/
theorem not_dropped_self {table : OrderedMap UInt64 (List (String × Bytes))} {commitTs : UInt64}
    (hpos : 0 < commitTs.toNat) : ¬ Dropped table commitTs commitTs := by
  rintro ⟨-, hle⟩
  unfold saturatingSub at hle
  rw [UInt64.le_iff_toNat_le] at hle
  split at hle
  · next hge =>
    rw [UInt64.toNat_sub_of_le _ _ hge] at hle
    have : (UInt64.ofNat gcThreshold).toNat = 10000 := rfl
    omega
  · rw [UInt64.toNat_zero] at hle
    omega

/-- A transaction passes the check only if no recorded commit since its snapshot shares a key. -/
theorem disjoint_of_conflicts_eq_false {m : TransactionManager} {tx : Transaction}
    (h : m.conflicts tx = false) {ts : UInt64} {keys : List (String × Bytes)}
    (hrec : m.committedWrites[ts]? = some keys) (hts : tx.snapshotTs < ts) :
    ∀ key ∈ keys, key ∉ tx.writeKeys := by
  intro key hkey hmem
  have hne : tx.writeKeys.isEmpty = false := by
    rw [List.isEmpty_eq_false_iff_exists_mem]
    exact ⟨key, hmem⟩
  rw [conflicts, hne, Bool.not_false, Bool.true_and, List.any_eq_false] at h
  have hapart := h (ts, keys) ((OrderedMap.mem_toList _).mpr hrec)
  simp only [hts, decide_true, Bool.true_and, List.any_eq_true, decide_eq_true_eq] at hapart
  exact hapart ⟨key, hkey, hmem⟩

end TransactionManager

open TransactionManager

/-! ## The condition -/

namespace Session

/-- A commit does not drop the record of a commit newer than the snapshot of another transaction
that is still open. -/
def KeepsOpenRecords (s : Session) : Op → Prop
  | .commit i =>
    ∀ tx ∈ s.txs[i]?, ∀ p ∈ s.txs.zipIdx, p.2 ≠ i → p.1.state = .active →
      ∀ e ∈ s.manager.committedWrites.toList,
        Dropped (s.manager.committedWrites.insert s.manager.oracle.counter tx.writeKeys)
          s.manager.oracle.counter e.1 → e.1 ≤ p.1.snapshotTs
  | _ => True

/-- Below the threshold nothing is dropped at all. -/
theorem keepsOpenRecords_of_size_lt {s : Session}
    (h : s.manager.committedWrites.size < gcThreshold) (op : Op) : s.KeepsOpenRecords op := by
  cases op with
  | commit i =>
    rintro tx - p - - - e - ⟨hsize, -⟩
    have := Std.ExtTreeMap.size_insert_le (t := s.manager.committedWrites)
      (k := s.manager.oracle.counter) (v := tx.writeKeys)
    omega
  | _ => trivial

/-- Transaction `i` committed at `c`. -/
def CommittedAt (s : Session) (i : Nat) (c : UInt64) : Prop :=
  (.commit i, .committed (.ok c)) ∈ s.history

instance (s : Session) (i : Nat) (c : UInt64) : Decidable (s.CommittedAt i c) :=
  inferInstanceAs (Decidable (_ ∈ _))

/-- Of two committed transactions with a key in common, one began after the other committed. -/
def FirstCommitterWins (s : Session) : Prop :=
  ∀ (i j : Nat) (ti tj : Transaction) (ci cj : UInt64), i ≠ j → s.txs[i]? = some ti → s.txs[j]? = some tj →
    s.CommittedAt i ci → s.CommittedAt j cj → (∃ key ∈ ti.writeKeys, key ∈ tj.writeKeys) →
    ci ≤ tj.snapshotTs ∨ cj ≤ ti.snapshotTs

/-! ## The invariant -/

/-- What the table still knows: every commit is below the counter, and either on record or no
concern of any open transaction. -/
structure Recorded (s : Session) : Prop where
  clocked : s.Clocked
  committed : ∀ i c, s.CommittedAt i c →
    c < s.manager.oracle.counter ∧ ∃ tx, s.txs[i]? = some tx ∧ tx.state = .committed ∧
      ∀ (j : Nat) (tj : Transaction), s.txs[j]? = some tj → tj.state = .active →
        s.manager.committedWrites[c]? = some tx.writeKeys ∨ c ≤ tj.snapshotTs
  wins : s.FirstCommitterWins

theorem recorded_init : Recorded init where
  clocked := clocked_init
  committed i c h := by simp [CommittedAt, init] at h
  wins i j ti tj ci cj _ h := by simp [init] at h

/-- Only a successful commit adds a commit to the history. -/
theorem committedAt_respond {s : Session} {op : Op} {r : Response} {i : Nat} {c : UInt64} :
    (s.respond op r).CommittedAt i c ↔
      (op = .commit i ∧ r = .committed (.ok c)) ∨ s.CommittedAt i c := by
  simp [CommittedAt, respond, eq_comm]

/-- Steps that commit nothing: commits and their transactions stay as they were, and whatever is
open now was open before or has just begun. -/
theorem Recorded.of_frame {s s' : Session} (h : s.Recorded) (hclock : s'.Clocked)
    (hcounter : s.manager.oracle.counter ≤ s'.manager.oracle.counter)
    (htable : s'.manager.committedWrites = s.manager.committedWrites)
    (hhist : ∀ i c, s'.CommittedAt i c → s.CommittedAt i c)
    (hkeep : ∀ (i : Nat) (tx : Transaction), s.txs[i]? = some tx → tx.state = .committed →
      s'.txs[i]? = some tx)
    (hopen : ∀ (j : Nat) (tj : Transaction), s'.txs[j]? = some tj → tj.state = .active →
      (∃ tj₀, s.txs[j]? = some tj₀ ∧ tj₀.state = .active ∧ tj₀.snapshotTs = tj.snapshotTs) ∨
        ∀ c < s.manager.oracle.counter, c ≤ tj.snapshotTs) : s'.Recorded where
  clocked := hclock
  committed i c hc := by
    obtain ⟨hlt, tx, htx, hst, hrec⟩ := h.committed i c (hhist i c hc)
    refine ⟨lt_of_lt_of_le hlt hcounter, tx, hkeep i tx htx hst, hst, fun j tj htj hact => ?_⟩
    rcases hopen j tj htj hact with ⟨tj₀, htj₀, hact₀, hsnap⟩ | hnew
    · rw [htable, ← hsnap]
      exact hrec j tj₀ htj₀ hact₀
    · exact .inr (hnew c hlt)
  wins i j ti tj ci cj hij hti htj hci hcj hkey := by
    obtain ⟨-, ti₀, hti₀, hsti, -⟩ := h.committed i ci (hhist i ci hci)
    obtain ⟨-, tj₀, htj₀, hstj, -⟩ := h.committed j cj (hhist j cj hcj)
    obtain rfl : ti = ti₀ := Option.some.inj (hti.symm.trans (hkeep i ti₀ hti₀ hsti))
    obtain rfl : tj = tj₀ := Option.some.inj (htj.symm.trans (hkeep j tj₀ htj₀ hstj))
    exact h.wins i j ti tj ci cj hij hti₀ htj₀ (hhist i ci hci) (hhist j cj hcj) hkey

/-- Replacing an open transaction leaves the committed ones alone. -/
theorem getElem?_set_of_committed {txs : List Transaction} {i k : Nat} {tx tx' t : Transaction}
    (htx : txs[i]? = some tx) (hact : tx.state = .active) (ht : txs[k]? = some t)
    (hst : t.state = .committed) : (txs.set i tx')[k]? = some t := by
  have hne : i ≠ k := by
    rintro rfl
    rw [htx] at ht
    cases ht
    rw [hact] at hst
    cases hst
  rw [List.getElem?_set_ne hne, ht]

/-- Replacing a transaction by one with the same snapshot opens nothing new. -/
theorem open_of_set {txs : List Transaction} {i j : Nat} {tx tx' tj : Transaction}
    (htx : txs[i]? = some tx) (hact : tx.state = .active)
    (htj : (txs.set i tx')[j]? = some tj) (hsnap : tx.snapshotTs = tx'.snapshotTs)
    (hactj : tj.state = .active) :
    ∃ tj₀, txs[j]? = some tj₀ ∧ tj₀.state = .active ∧ tj₀.snapshotTs = tj.snapshotTs := by
  by_cases hij : i = j
  · subst hij
    have hlt := (List.getElem?_eq_some_iff.mp htx).1
    rw [List.getElem?_set_self hlt] at htj
    cases htj
    exact ⟨tx, htx, hact, hsnap⟩
  · rw [List.getElem?_set_ne hij] at htj
    exact ⟨tj, htj, hactj, rfl⟩

/-- A successful commit: nothing on record since the snapshot shares a key, and what the table
drops concerns no open transaction. -/
theorem Recorded.commit {s s' : Session} {i : Nat} {tx : Transaction} (h : s.Recorded)
    (hclock : s'.Clocked)
    (hcounter : s.manager.oracle.counter < s'.manager.oracle.counter)
    (htable : s'.manager.committedWrites =
      prune (s.manager.committedWrites.insert s.manager.oracle.counter tx.writeKeys)
        s.manager.oracle.counter)
    (hhist : ∀ k c, s'.CommittedAt k c →
      (k = i ∧ c = s.manager.oracle.counter) ∨ s.CommittedAt k c)
    (htxs : s'.txs = s.txs.set i { tx with state := .committed })
    (htx : s.txs[i]? = some tx) (hact : tx.state = .active)
    (hconf : s.manager.conflicts tx = false) (hkeeps : s.KeepsOpenRecords (.commit i)) :
    s'.Recorded := by
  have hnew : s'.txs[i]? = some { tx with state := .committed } := by
    rw [htxs, List.getElem?_set_self (List.getElem?_eq_some_iff.mp htx).1]
  -- earlier commits keep their transactions, and are older than this one if they share a key
  have hold : ∀ k c, s.CommittedAt k c → ∃ tk, s.txs[k]? = some tk ∧ s'.txs[k]? = some tk ∧
      tk.state = .committed ∧ ((∃ key ∈ tk.writeKeys, key ∈ tx.writeKeys) → c ≤ tx.snapshotTs) := by
    intro k c hc
    obtain ⟨-, tk, htk, hst, hrec⟩ := h.committed k c hc
    refine ⟨tk, htk, htxs ▸ getElem?_set_of_committed htx hact htk hst, hst, ?_⟩
    rintro ⟨key, hkey, hmem⟩
    rcases hrec i tx htx hact with hrec | hle
    · by_contra hlt
      exact disjoint_of_conflicts_eq_false hconf hrec (not_le.mp hlt) key hkey hmem
    · exact hle
  refine ⟨hclock, fun k c hc => ?_, fun k l tk tl ck cl hkl htk htl hck hcl hkey => ?_⟩
  · rcases hhist k c hc with ⟨rfl, rfl⟩ | hc
    · refine ⟨hcounter, _, hnew, rfl, fun j tj _ _ => .inl ?_⟩
      rw [htable, getElem?_prune, if_neg (not_dropped_self h.clocked.pos),
        OrderedMap.getElem?_insert, if_pos rfl]
      rfl
    · obtain ⟨hlt, tk, htk, hst, hrec⟩ := h.committed k c hc
      obtain ⟨tk', htk', hkeep, -⟩ := hold k c hc
      obtain rfl : tk' = tk := Option.some.inj (htk'.symm.trans htk)
      refine ⟨hlt.trans hcounter, tk', hkeep, hst, fun j tj htj hactj => ?_⟩
      have hij : j ≠ i := by
        rintro rfl
        rw [hnew] at htj
        cases htj
        cases hactj
      rw [htxs, List.getElem?_set_ne hij.symm] at htj
      rcases hrec j tj htj hactj with hrec | hle
      · by_cases hdrop : Dropped (s.manager.committedWrites.insert s.manager.oracle.counter
            tx.writeKeys) s.manager.oracle.counter c
        · right
          exact hkeeps tx (by simp [htx]) (tj, j) (List.mem_zipIdx_iff_getElem?.mpr htj) hij hactj
            (c, tk'.writeKeys) ((OrderedMap.mem_toList _).mpr hrec) hdrop
        · left
          rw [htable, getElem?_prune, if_neg hdrop, OrderedMap.getElem?_insert,
            if_neg (ne_of_gt hlt), hrec]
      · exact .inr hle
  · rcases hhist k ck hck with ⟨rfl, rfl⟩ | hck
    · rcases hhist l cl hcl with ⟨rfl, -⟩ | hcl
      · exact absurd rfl hkl
      · obtain ⟨tl', -, hkeep, -, hshare⟩ := hold l cl hcl
        obtain rfl : tl' = tl := Option.some.inj (hkeep.symm.trans htl)
        obtain rfl : { tx with state := .committed } = tk := Option.some.inj (hnew.symm.trans htk)
        obtain ⟨key, hk, hl⟩ := hkey
        exact .inr (hshare ⟨key, hl, hk⟩)
    · obtain ⟨tk', htk', hkeep, hst, hshare⟩ := hold k ck hck
      obtain rfl : tk' = tk := Option.some.inj (hkeep.symm.trans htk)
      rcases hhist l cl hcl with ⟨rfl, rfl⟩ | hcl
      · obtain rfl : { tx with state := .committed } = tl := Option.some.inj (hnew.symm.trans htl)
        exact .inl (hshare hkey)
      · obtain ⟨tl', htl', hkeepl, -⟩ := hold l cl hcl
        obtain rfl : tl' = tl := Option.some.inj (hkeepl.symm.trans htl)
        exact h.wins k l tk' tl' ck cl hkl htk' htl' hck hcl hkey

theorem Recorded.step {s : Session} (h : s.Recorded) {op : Op}
    (hok : s.TimestampLeft ∧ s.KeepsOpenRecords op) : (s.step op).Recorded := by
  obtain ⟨hleft, hkeeps⟩ := hok
  have hclock := h.clocked.step hleft op
  have hsucc := toNat_succ hleft
  have hlt : s.manager.oracle.counter < s.manager.oracle.counter + 1 := by
    rw [UInt64.lt_iff_toNat_lt]
    omega
  generalize hs' : s.step op = s' at hclock ⊢
  have hc : Change s op s' := hs' ▸ s.step_change op
  cases hc with
  | idle op r hr =>
    refine h.of_frame hclock (le_refl _) rfl (fun i c hc => ?_) (fun _ _ htx _ => htx)
      fun j tj htj hact => .inl ⟨tj, htj, hact, rfl⟩
    rcases committedAt_respond.mp hc with ⟨-, rfl⟩ | hc
    · cases hr
    · exact hc
  | begin =>
    refine h.of_frame hclock hlt.le rfl (fun i c hc => ?_) (fun i tx htx _ => ?_)
      fun j tj htj hact => ?_
    · rcases committedAt_respond.mp hc with ⟨⟨⟩, -⟩ | hc
      exact hc
    · exact List.getElem?_append_left (List.getElem?_eq_some_iff.mp htx).1 ▸ htx
    · rw [respond] at htj
      simp only [List.getElem?_append] at htj
      split at htj
      · exact .inl ⟨tj, htj, hact, rfl⟩
      · right
        intro c hc
        obtain rfl : Transaction.new _ _ = tj := by
          rw [List.getElem?_singleton] at htj
          split at htj
          · exact Option.some.inj htj
          · cases htj
        rw [Transaction.new, UInt64.le_iff_toNat_le, toNat_pred h.clocked.pos]
        rw [UInt64.lt_iff_toNat_lt] at hc
        omega
  | @buffer _ i w tx hop htx hact =>
    refine h.of_frame hclock (le_refl _) rfl (fun i c hc => ?_)
      (fun k t ht hst => getElem?_set_of_committed htx hact ht hst)
      fun j tj htj hactj => .inl (open_of_set htx hact htj rfl hactj)
    rcases committedAt_respond.mp hc with ⟨-, ⟨⟩⟩ | hc
    exact hc
  | @rollback i tx htx hact =>
    refine h.of_frame hclock (le_refl _) rfl (fun i c hc => ?_)
      (fun k t ht hst => getElem?_set_of_committed htx hact ht hst)
      fun j tj htj hactj => .inl (open_of_set htx hact htj rfl hactj)
    rcases committedAt_respond.mp hc with ⟨⟨⟩, -⟩ | hc
    exact hc
  | @spend i e =>
    refine h.of_frame hclock hlt.le rfl (fun i c hc => ?_) (fun _ _ htx _ => htx)
      fun j tj htj hact => .inl ⟨tj, htj, hact, rfl⟩
    rcases committedAt_respond.mp hc with ⟨-, ⟨⟩⟩ | hc
    exact hc
  | @commit i tx batch htx hact hconf hbatch =>
    refine h.commit hclock ?_ ?_ (fun k c hc => ?_) rfl htx hact hconf hkeeps
    · simpa [respond, TimestampOracle.next] using hlt
    · exact afterCommit_committedWrites _ _ _
    · rcases committedAt_respond.mp hc with ⟨hk, hcc⟩ | hc
      · left
        cases hk
        cases hcc
        exact ⟨rfl, rfl⟩
      · exact .inr hc

/-- **First committer wins**, in every run in which timestamps last and no commit drops a record
that an open transaction still needs. -/
theorem firstCommitter_of_keepsOpenRecords (ops : List Op)
    (hok : Run.Each step (fun s op => s.TimestampLeft ∧ s.KeepsOpenRecords op) init ops) :
    (init.run ops).FirstCommitterWins := by
  have hrec : (init.run ops).Recorded :=
    Run.invariant Recorded (fun _ _ h hok => h.step hok) recorded_init hok
  exact hrec.wins

/-- Two updates of one key, one after the other. -/
def sequentialUpdates : List Op :=
  [.begin, .put 0 "nodes" [1] [2], .commit 0, .begin, .put 1 "nodes" [1] [3], .commit 1]

theorem firstCommitter_sequentialUpdates :
    (init.run sequentialUpdates).CommittedAt 0 2 ∧ (init.run sequentialUpdates).CommittedAt 1 4 ∧
      (init.run sequentialUpdates).FirstCommitterWins := by
  refine ⟨by decide, by decide, firstCommitter_of_keepsOpenRecords _ ?_⟩
  have hok : Run.Each step
      (fun s _ => s.TimestampLeft ∧ s.manager.committedWrites.size < gcThreshold) init
      sequentialUpdates := by
    decide
  exact Run.Each.strengthen (fun _ => True) (fun _ _ _ _ => trivial)
    (fun _ op _ h => ⟨h.1, keepsOpenRecords_of_size_lt h.2 op⟩) trivial hok

/-! ## A transaction that outlives the record it needs -/

/-- Transactions that begin and commit at once, `n` of them, numbered from 2. -/
def idleRounds : Nat → List Op
  | 0 => []
  | n + 1 => idleRounds n ++ [.begin, .commit (n + 2)]

theorem idleRounds_succ (n : Nat) :
    idleRounds (n + 1) = idleRounds n ++ [.begin, .commit (n + 2)] := rfl

theorem length_idleRounds (n : Nat) : (idleRounds n).length = 2 * n := by
  induction n with
  | zero => rfl
  | succ n ih =>
    rw [idleRounds_succ, List.length_append, ih]
    rfl

/-- Transaction 0 stays open while transaction 1 writes a key and others do `rounds`; then
transaction 0 writes the same key. -/
def heldOpen (rounds : List Op) : List Op :=
  [.begin, .begin, .put 1 "nodes" [1] [2], .commit 1] ++ rounds ++
    [.put 0 "nodes" [1] [3], .commit 0]

theorem length_heldOpen (rounds : List Op) : (heldOpen rounds).length = 6 + rounds.length := by
  simp [heldOpen]
  omega

/-- The last operations of the run, one idle round included. -/
theorem heldOpen_append (rounds : List Op) (a b : Op) :
    heldOpen (rounds ++ [a, b]) =
      ([.begin, .begin, .put 1 "nodes" [1] [2], .commit 1] ++ rounds) ++
        [a, b, .put 0 "nodes" [1] [3], .commit 0] := by
  simp [heldOpen]

/-- Ten thousand idle rounds are enough. -/
def lostUpdate : List Op := heldOpen (idleRounds 10000)

/-- A transaction that begins and commits at once, having written nothing. -/
theorem idle_round (s : Session) :
    ∃ tx, ((s.step .begin).step (.commit s.txs.length)).txs = s.txs ++ [tx] ∧
      ((s.step .begin).step (.commit s.txs.length)).manager.oracle.counter =
        s.manager.oracle.counter + 1 + 1 ∧
      ((s.step .begin).step (.commit s.txs.length)).manager.committedWrites =
        prune (s.manager.committedWrites.insert (s.manager.oracle.counter + 1) [])
          (s.manager.oracle.counter + 1) ∧
      ∀ i c, s.CommittedAt i c → ((s.step .begin).step (.commit s.txs.length)).CommittedAt i c := by
  have htx : (s.step .begin).txs[s.txs.length]? =
      some (Transaction.new s.manager.oracle.counter (s.manager.oracle.counter - 1)) := by
    simp [step, TransactionManager.begin, TimestampOracle.next, respond]
  rw [step_commit (b := []) htx rfl rfl rfl]
  refine ⟨⟨s.manager.oracle.counter, s.manager.oracle.counter - 1, .committed, []⟩, ?_, ?_, ?_,
    fun i c hc => ?_⟩
  · simp [step, TransactionManager.begin, TimestampOracle.next, respond, Transaction.new]
  · simp [step, TransactionManager.begin, TimestampOracle.next, respond]
  · simp [step, TransactionManager.begin, TimestampOracle.next, respond, Transaction.new,
      Transaction.writeKeys]
  · exact committedAt_respond.mpr (.inr (committedAt_respond.mpr (.inr hc)))

/-- The session after `n` idle rounds, as long as nothing is pruned. -/
structure Outliving (n : Nat) (s : Session) : Prop where
  counter : s.manager.oracle.counter = UInt64.ofNat (4 + 2 * n)
  size : s.manager.committedWrites.size = n + 1
  records : ∀ ts keys, s.manager.committedWrites[ts]? = some keys →
    ts < s.manager.oracle.counter ∧ (keys = [] ∨ ts = 3)
  length : s.txs.length = n + 2
  reader : s.txs[0]? = some (Transaction.new 1 0)
  writer : s.txs[1]? = some ⟨2, 1, .committed, [⟨"nodes", [1], some [2]⟩]⟩
  committed : s.CommittedAt 1 3

/-- The table after one more idle round, before pruning. -/
theorem Outliving.insert {n : Nat} {s : Session} (h : Outliving n s) (hn : n < 10000) :
    (s.manager.committedWrites.insert (s.manager.oracle.counter + 1) []).size = n + 2 ∧
      ∀ ts keys, (s.manager.committedWrites.insert (s.manager.oracle.counter + 1) [])[ts]? =
        some keys → ts < s.manager.oracle.counter + 1 + 1 ∧ (keys = [] ∨ ts = 3) := by
  have hc : s.manager.oracle.counter.toNat = 4 + 2 * n := by
    rw [h.counter, UInt64.toNat_ofNat', Nat.mod_eq_of_lt (by omega)]
  have hc1 : (s.manager.oracle.counter + 1).toNat = 5 + 2 * n := by
    rw [UInt64.toNat_add, hc, UInt64.toNat_one, Nat.mod_eq_of_lt (by omega)]
    omega
  have hc2 : (s.manager.oracle.counter + 1 + 1).toNat = 6 + 2 * n := by
    rw [UInt64.toNat_add, hc1, UInt64.toNat_one, Nat.mod_eq_of_lt (by omega)]
    omega
  constructor
  · have hnew : s.manager.committedWrites.contains (s.manager.oracle.counter + 1) = false := by
      by_contra hmem
      rw [Bool.not_eq_false, Std.ExtTreeMap.contains_eq_isSome_getElem?,
        Option.isSome_iff_exists] at hmem
      obtain ⟨keys, hkeys⟩ := hmem
      have := UInt64.lt_iff_toNat_lt.mp (h.records _ _ hkeys).1
      omega
    rw [Std.ExtTreeMap.size_insert, hnew, h.size]
    rfl
  · intro ts keys hts
    rw [OrderedMap.getElem?_insert] at hts
    split at hts
    · next heq =>
      subst heq
      cases hts
      rw [UInt64.lt_iff_toNat_lt, hc1, hc2]
      exact ⟨by omega, .inl rfl⟩
    · obtain ⟨hlt, hkeys⟩ := h.records ts keys hts
      rw [UInt64.lt_iff_toNat_lt, hc] at hlt
      rw [UInt64.lt_iff_toNat_lt, hc2]
      exact ⟨by omega, hkeys⟩

theorem Outliving.round {n : Nat} {s : Session} (h : Outliving n s) (hn : n < 9999) :
    Outliving (n + 1) ((s.step .begin).step (.commit (n + 2))) := by
  obtain ⟨hsize, hrecords⟩ := h.insert (by omega)
  obtain ⟨tx, htxs, hcounter, htable, hhist⟩ := s.idle_round
  rw [h.length] at htxs hcounter htable hhist
  have hkept : prune (s.manager.committedWrites.insert (s.manager.oracle.counter + 1) [])
      (s.manager.oracle.counter + 1) =
        s.manager.committedWrites.insert (s.manager.oracle.counter + 1) [] := by
    rw [prune, if_neg]
    rw [hsize, gcThreshold]
    omega
  rw [hkept] at htable
  refine ⟨?_, ?_, ?_, ?_, ?_, ?_, hhist 1 3 h.committed⟩
  · rw [hcounter, h.counter]
    apply UInt64.toNat_inj.mp
    simp only [UInt64.toNat_add, UInt64.toNat_ofNat', UInt64.toNat_one]
    omega
  · rw [htable, hsize]
  · rw [htable, hcounter]
    exact hrecords
  · rw [htxs, List.length_append, h.length]
    rfl
  · rw [htxs, List.getElem?_append_left (by rw [h.length]; omega), h.reader]
  · rw [htxs, List.getElem?_append_left (by rw [h.length]; omega), h.writer]

/-- The first record is dropped in the ten-thousandth round. -/
theorem Outliving.last {s : Session} (h : Outliving 9999 s) :
    ∀ (ts : UInt64) (keys : List (String × Bytes)),
      ((s.step .begin).step (.commit 10001)).manager.committedWrites[ts]? = some keys →
        keys = [] := by
  obtain ⟨hsize, hrecords⟩ := h.insert (by omega)
  obtain ⟨tx, -, -, htable, -⟩ := s.idle_round
  rw [h.length] at htable
  rw [htable]
  intro ts keys hts
  rw [getElem?_prune] at hts
  split at hts
  · cases hts
  · next hkept =>
    rcases (hrecords ts keys hts).2 with hnil | rfl
    · exact hnil
    · refine absurd ⟨?_, ?_⟩ hkept
      · rw [hsize]
        decide
      · rw [h.counter]
        decide

theorem outliving_rounds (n : Nat) (hn : n ≤ 9999) :
    Outliving n (init.run ([.begin, .begin, .put 1 "nodes" [1] [2], .commit 1] ++
      idleRounds n)) := by
  induction n with
  | zero =>
    refine ⟨by decide, by decide, fun ts keys hts => ?_, by decide,
      by decide, by decide, by decide⟩
    have htable : (init.run ([.begin, .begin, .put 1 "nodes" [1] [2], .commit 1] ++
        idleRounds 0)).manager.committedWrites.toList =
          [(3, [("nodes", [1])])] := by
      decide
    have hmem := (OrderedMap.mem_toList _).mpr (show _ = some ((ts, keys) : UInt64 × _).2 from hts)
    rw [htable, List.mem_singleton] at hmem
    cases hmem
    exact ⟨by decide, .inr rfl⟩
  | succ n ih =>
    rw [idleRounds_succ, ← List.append_assoc, run, Run.exec_append]
    exact (ih (by omega)).round (by omega)

/-- With the record gone, the open transaction commits its write of the same key. -/
theorem Outliving.lost {s : Session} (h : Outliving 9999 s) :
    ¬ (s.run [.begin, .commit 10001, .put 0 "nodes" [1] [3], .commit 0]).FirstCommitterWins := by
  have hnil := h.last
  obtain ⟨tx, htxs, hcounter, -, hhist⟩ := s.idle_round
  rw [h.length] at htxs hcounter hhist
  simp only [run, Run.exec_cons, Run.exec_nil]
  generalize (s.step .begin).step (.commit 10001) = u at *
  have hreader : u.txs[0]? = some (Transaction.new 1 0) := by
    rw [htxs, List.getElem?_append_left (by rw [h.length]; omega), h.reader]
  have hwriter : u.txs[1]? = some ⟨2, 1, .committed, [⟨"nodes", [1], some [2]⟩]⟩ := by
    rw [htxs, List.getElem?_append_left (by rw [h.length]; omega), h.writer]
  have hput : u.step (.put 0 "nodes" [1] [3]) =
      { u with txs := u.txs.set 0 ⟨1, 0, .active, [⟨"nodes", [1], some [3]⟩]⟩ }.respond
        (.put 0 "nodes" [1] [3]) (.done (.ok ())) := by
    simp [step, hreader, Transaction.put, Transaction.buffer, Transaction.new, update, Except.map]
  have hconf : u.manager.conflicts ⟨1, 0, .active, [⟨"nodes", [1], some [3]⟩]⟩ = false := by
    rw [conflicts, Bool.and_eq_false_iff]
    right
    rw [List.any_eq_false]
    rintro ⟨ts, keys⟩ hmem
    rw [hnil ts keys ((OrderedMap.mem_toList _).mp hmem)]
    simp
  have hget : (u.step (.put 0 "nodes" [1] [3])).txs[0]? =
      some ⟨1, 0, .active, [⟨"nodes", [1], some [3]⟩]⟩ := by
    rw [hput]
    exact List.getElem?_set_self (List.getElem?_eq_some_iff.mp hreader).1
  rw [step_commit (b := [.put .nodes (encodeVersionedKey [1] u.manager.oracle.counter) [3]])
    hget rfl (by rw [hput]; exact hconf) (by rw [hput]; rfl), hput]
  intro hwins
  have := hwins 0 1 ⟨1, 0, .committed, [⟨"nodes", [1], some [3]⟩]⟩
    ⟨2, 1, .committed, [⟨"nodes", [1], some [2]⟩]⟩ u.manager.oracle.counter 3 (by decide) ?_ ?_ ?_ ?_
    ⟨("nodes", [1]), by decide, by decide⟩
  · rcases this with hle | hle
    · rw [hcounter, h.counter] at hle
      exact absurd hle (by decide)
    · exact absurd hle (by decide)
  · simp [respond, (List.getElem?_eq_some_iff.mp hreader).1]
  · simpa [respond] using hwriter
  · exact committedAt_respond.mpr (.inl ⟨rfl, rfl⟩)
  · exact committedAt_respond.mpr (.inr (committedAt_respond.mpr (.inr (hhist 1 3 h.committed))))

/-- **A lost update.** Transactions 0 and 1 both commit a write of the same key, and neither began
after the other committed. -/
theorem firstCommitter_lostUpdate :
    Run.Each step (fun s _ => s.TimestampLeft) init lostUpdate ∧
      ¬ (init.run lostUpdate).FirstCommitterWins := by
  constructor
  · refine timestampLeft_of_length ?_
    rw [lostUpdate, length_heldOpen, length_idleRounds]
    decide
  · rw [lostUpdate, show idleRounds 10000 = idleRounds 9999 ++ [.begin, .commit 10001] from
      idleRounds_succ 9999, heldOpen_append, run, Run.exec_append]
    exact (outliving_rounds 9999 (le_refl _)).lost

end Session

end Synaptica.Tx
