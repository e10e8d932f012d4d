import Synaptica.Tx.SnapshotIsolation

/-!
# What a commit publishes

A transaction reads its own buffer from the end; its commit writes the buffer from the front to one
version of each key. Both leave the last write of a key, and the version stays the newest of its key
until another commit writes it. So what the transaction read of a key before its commit is what
everyone reads from the commit timestamp on (`getAt_after_commit`) — unless it wrote an empty value,
which the store reads as a deletion (`getAt_emptyValue`).
-/

namespace Synaptica.Tx

open Storage TransactionManager Versioned

/-- The operation uses keys of `K` only. -/
def Op.UsesKeys (K : String → Bytes → Prop) : Op → Prop
  | .get _ cfName key | .put _ cfName key _ | .delete _ cfName key => K cfName key
  | _ => True

theorem Transaction.exists_ownWrite {tx : Transaction} {cfName : String} {k : Bytes} :
    (∃ w, tx.ownWrite cfName k = some w) ↔ (cfName, k) ∈ tx.writeKeys := by
  rw [← Option.isSome_iff_exists, Transaction.ownWrite, List.find?_isSome, Transaction.writeKeys,
    List.mem_map]
  simp

namespace Session

variable {K : String → Bytes → Prop}

/-! ## Keys of a run -/

/-- The store and the write sets hold usable keys only. -/
structure Keyed (K : String → Bytes → Prop) (s : Session) : Prop where
  clocked : s.Clocked
  stored : s.Stored K
  uses : ∀ tx ∈ s.txs, ∀ w ∈ tx.writeSet, K w.cfName w.key

theorem keyed_init : Keyed K init where
  clocked := clocked_init
  stored c b hb := by simp [init, TransactionManager.new, Db.empty] at hb
  uses := by simp [init]

theorem usesKeys_of_buffered {op : Op} {i : Nat} {w : BufferedWrite}
    (h : op.buffered = some (i, w)) (huses : op.UsesKeys K) : K w.cfName w.key := by
  cases op with
  | put j cfName key value =>
    cases h
    exact huses
  | delete j cfName key =>
    cases h
    exact huses
  | _ => cases h

theorem Keyed.step {s : Session} (h : Keyed K s) {op : Op} (hleft : s.TimestampLeft)
    (huses : op.UsesKeys K) : Keyed K (s.step op) := by
  have hclock := h.clocked.step hleft op
  have hsucc := toNat_succ hleft
  have hlt : s.manager.oracle.counter < s.manager.oracle.counter + 1 := by
    rw [UInt64.lt_iff_toNat_lt]
    omega
  generalize hs' : s.step op = s' at hclock ⊢
  have hc : Change s op s' := hs' ▸ s.step_change op
  cases hc with
  | idle op r hr => exact ⟨hclock, h.stored, h.uses⟩
  | begin =>
    refine ⟨hclock, h.stored.mono rfl hlt.le, fun tx htx => ?_⟩
    rcases List.mem_append.mp htx with htx | htx
    · exact h.uses tx htx
    · obtain rfl := List.mem_singleton.mp htx
      simp [Transaction.new]
  | @buffer _ i w tx hop htx hact =>
    refine ⟨hclock, h.stored, forall_mem_set htx h.uses fun htx w' hw' => ?_⟩
    rcases List.mem_append.mp hw' with hw' | hw'
    · exact htx w' hw'
    · obtain rfl := List.mem_singleton.mp hw'
      exact usesKeys_of_buffered hop huses
  | @rollback i tx htx hact => exact ⟨hclock, h.stored, forall_mem_set htx h.uses id⟩
  | @spend i e => exact ⟨hclock, h.stored.mono rfl hlt.le, h.uses⟩
  | @commit i tx batch htx hact hconf hbatch =>
    refine ⟨hclock, ?_, forall_mem_set htx h.uses id⟩
    exact h.stored.commit hbatch (h.uses tx (List.mem_of_getElem? htx)) rfl
      (by simpa [respond, TimestampOracle.next] using hlt)

theorem Keyed.run {s : Session} (h : Keyed K s) {ops : List Op}
    (huses : ∀ op ∈ ops, op.UsesKeys K)
    (hleft : Run.Each Session.step (fun s _ => s.TimestampLeft) s ops) : Keyed K (s.run ops) :=
  Run.invariant (Keyed K) (fun _ _ h hok => h.step hok.1 hok.2) h (hleft.and_forall_mem huses)

/-! ## The newest version -/

/-- The version of `k` at `ts` holds `value`, and is the newest one of `k`. -/
structure Published (c : ColumnFamily) (k : Bytes) (ts : UInt64) (value : Bytes) (s : Session) :
    Prop where
  entry : (s.manager.db c)[encodeVersionedKey k ts]? = some value
  newest : ∀ t, ((s.manager.db c)[encodeVersionedKey k t]?).isSome → t ≤ ts

/-- The operation is no commit of a write to the key. -/
def Spares (cfName : String) (k : Bytes) (s : Session) (op : Op) : Prop :=
  ∀ i tx ts, op = .commit i → s.txs[i]? = some tx → (s.manager.commit tx).1 = .ok ts →
    (cfName, k) ∉ tx.writeKeys

variable {c : ColumnFamily} {k : Bytes} {ts : UInt64} {value : Bytes}

/-- A commit publishes the last write of each key. -/
theorem published_commit {s : Session} (h : Keyed K s) (hK : PrefixFree K) {i : Nat}
    {tx : Transaction} {w : BufferedWrite} (htx : s.txs[i]? = some tx)
    (hcommit : (s.manager.commit tx).1 = .ok ts) (hk : K c.name k)
    (hown : tx.ownWrite c.name k = some w) :
    Published c k ts (w.value.getD tombstone) (s.step (.commit i)) := by
  rcases s.manager.commit_cases tx with ⟨e, he⟩ | ⟨e, he⟩ | ⟨hact, hconf, batch, hbatch, he⟩
  · rw [he] at hcommit
    cases hcommit
  · rw [he] at hcommit
    cases hcommit
  · rw [he] at hcommit
    cases hcommit
    have hentry := fun t => getElem?_afterCommit hK hbatch hk t
    rw [step_commit htx hact hconf hbatch]
    constructor
    · show ((s.manager.afterCommit tx batch).db c)[_]? = _
      rw [hentry, if_pos rfl, hown]
    · intro t ht
      change (((s.manager.afterCommit tx batch).db c)[_]?).isSome at ht
      by_cases hts : t = s.manager.oracle.counter
      · exact hts.le
      · rw [hentry, if_neg hts] at ht
        exact (h.stored.lt_counter hK hk (by simpa [TableVersions] using ht)).le

/-- What is published stays so until the key is written again. -/
theorem Published.step {s : Session} (h : Published c k ts value s) (hK : PrefixFree K)
    (hkeyed : Keyed K s) (hk : K c.name k) {op : Op} (hop : Spares c.name k s op) :
    Published c k ts value (s.step op) := by
  generalize hs' : s.step op = s'
  have hc : Change s op s' := hs' ▸ s.step_change op
  cases hc with
  | idle | begin | buffer | rollback | spend => exact ⟨h.entry, h.newest⟩
  | @commit i tx batch htx hact hconf hbatch =>
    have hnot : tx.ownWrite c.name k = none := by
      rw [Option.eq_none_iff_forall_not_mem]
      intro w hw
      refine hop i tx s.manager.oracle.counter rfl htx ?_ (Transaction.exists_ownWrite.mp ⟨w, hw⟩)
      rw [commit_eq hact hconf hbatch]
    have hentry : ∀ t, ((s.manager.afterCommit tx batch).db c)[encodeVersionedKey k t]? =
        (s.manager.db c)[encodeVersionedKey k t]? := by
      intro t
      rw [getElem?_afterCommit hK hbatch hk, hnot, ite_self]
    refine ⟨(hentry ts).trans h.entry, fun t ht => h.newest t ?_⟩
    rwa [← hentry t]

/-- What is published is read from then on. -/
theorem Published.readAt {s : Session} (h : Published c k ts value s) (hK : PrefixFree K)
    (hkeyed : Keyed K s) (hk : K c.name k) {r : UInt64} (hr : ts ≤ r) :
    MvccStore.readAt (s.manager.db c) k r = versionOf value := by
  obtain ⟨v, hv, hread⟩ := (MvccStore.readAt_newest_iff (hkeyed.stored.allVersioned c) k r).mpr
    (hkeyed.stored.unshadowed hK hk r)
  have htop : ReadsAt (TableVersions (s.manager.db c) k) r (some (versionOf value)) := by
    refine readsAt_of_top ?_ hr fun t ht => h.newest t (by simpa [TableVersions] using ht)
    rw [TableVersions, h.entry]
    rfl
  rw [hread, hv.unique htop]
  rfl

/-- A stored write reads as what was written, an empty value as nothing. -/
theorem versionOf_getD (value : Option Bytes) :
    versionOf (value.getD tombstone) = value.filter fun v => decide (v ≠ []) := by
  cases value with
  | none => rfl
  | some v => cases v <;> simp [versionOf, isTombstone, Option.filter]

/-- **A commit publishes what its transaction saw**: in a session over keys of which none extends
another, what a transaction reads of a key it has written just before its commit succeeds is what a
read at any timestamp from the commit on returns, as long as no later commit has written the key.
An empty value reads as nothing. -/
theorem getAt_after_commit (K : String → Bytes → Prop) (hK : PrefixFree K) (ops later : List Op)
    (i : Nat) (huses : ∀ op ∈ ops ++ later, op.UsesKeys K)
    (hleft : Run.Each step (fun s _ => s.TimestampLeft) init (ops ++ .commit i :: later))
    (tx : Transaction) (htx : (init.run ops).txs[i]? = some tx) (ts : UInt64)
    (hcommit : ((init.run ops).manager.commit tx).1 = .ok ts) (cfName : String) (k : Bytes)
    (hwrote : (cfName, k) ∈ tx.writeKeys)
    (hlater : Run.Each step (Spares cfName k) ((init.run ops).step (.commit i)) later)
    (r : UInt64) (hr : ts ≤ r) :
    ∃ v, tx.get (init.run ops).manager.db cfName k = .ok v ∧
      MvccStore.getAt (((init.run ops).step (.commit i)).run later).manager.db cfName k r =
        .ok (v.filter fun v => decide (v ≠ [])) := by
  obtain ⟨hleft, hleftCommit, hleftLater⟩ := Run.each_append.mp hleft
  have hkeyed : Keyed K (init.run ops) :=
    keyed_init.run (fun op hop => huses op (List.mem_append_left _ hop)) hleft
  obtain ⟨w, hown⟩ := Transaction.exists_ownWrite.mpr hwrote
  have hmem := List.mem_reverse.mp (List.mem_of_find?_eq_some hown)
  have hkey := List.find?_some hown
  simp only [decide_eq_true_eq] at hkey
  have hk : K cfName k := by
    rw [← hkey.1, ← hkey.2]
    exact hkeyed.uses tx (List.mem_of_getElem? htx) w hmem
  -- a commit that went through knew its column families
  rcases (init.run ops).manager.commit_cases tx with
    ⟨e, he⟩ | ⟨e, he⟩ | ⟨hact, hconf, batch, hbatch, he⟩
  · rw [he] at hcommit
    cases hcommit
  · rw [he] at hcommit
    cases hcommit
  obtain ⟨c, hc⟩ := Option.isSome_iff_exists.mp ((versionedBatch_eq_map hbatch).2 w hmem)
  rw [hkey.1] at hc
  obtain rfl := name_of_cfHandle hc
  have hpub := published_commit hkeyed hK htx hcommit hk hown
  have hafter : Keyed K ((init.run ops).step (.commit i)) := hkeyed.step hleftCommit trivial
  have hend := Run.invariant
    (fun s => Keyed K s ∧ Published c k ts (w.value.getD tombstone) s)
    (fun s op h hok => ⟨h.1.step hok.1.1 hok.1.2, h.2.step hK h.1 hk hok.2⟩)
    ⟨hafter, hpub⟩
    (((hleftLater.and_forall_mem fun op hop => huses op (List.mem_append_right _ hop)).and hlater))
  refine ⟨w.value, by simp [Transaction.get, hact, hown], ?_⟩
  rw [← versionOf_getD, ← hend.2.readAt hK hend.1 hk hr]
  simp [MvccStore.getAt, mvccCf, hc, bind, Except.bind, pure, Except.pure]

/-! ## Samples -/

/-- A key is written, deleted and written again. -/
def overwriting : List Op :=
  [.begin, .put 0 "nodes" [1] [2], .delete 0 "nodes" [1], .put 0 "nodes" [1] [3]]

theorem getAt_after_overwriting :
    ∃ v, (⟨1, 0, .active, [⟨"nodes", [1], some [2]⟩, ⟨"nodes", [1], none⟩,
        ⟨"nodes", [1], some [3]⟩]⟩ : Transaction).get (init.run overwriting).manager.db "nodes" [1] =
          .ok v ∧
      MvccStore.getAt (((init.run overwriting).step (.commit 0)).run [.begin]).manager.db "nodes"
        [1] 7 = .ok (v.filter fun v => decide (v ≠ [])) :=
  getAt_after_commit OneKey prefixFree_oneKey overwriting [.begin] 0
    (by
      intro op hop
      fin_cases hop
      · trivial
      · exact ⟨rfl, rfl⟩
      · exact ⟨rfl, rfl⟩
      · exact ⟨rfl, rfl⟩
      · trivial)
    (timestampLeft_of_length (by decide)) _ (by decide) 2 (by decide) "nodes" [1]
    (by decide) ⟨fun i tx ts h => (by cases h), trivial⟩ 7 (by decide)

/-- An empty value is written. -/
def writingNothing : List Op := [.begin, .put 0 "nodes" [1] []]

/-- Before the commit the transaction reads an empty value, afterwards everyone reads nothing. -/
theorem getAt_emptyValue :
    ∃ tx, (init.run writingNothing).txs[0]? = some tx ∧
      ((init.run writingNothing).manager.commit tx).1 = .ok 2 ∧ ("nodes", [1]) ∈ tx.writeKeys ∧
      tx.get (init.run writingNothing).manager.db "nodes" [1] = .ok (some []) ∧
      MvccStore.getAt ((init.run writingNothing).step (.commit 0)).manager.db "nodes" [1] 2 =
        .ok none :=
  ⟨⟨1, 0, .active, [⟨"nodes", [1], some []⟩]⟩, by decide, by decide, by decide,
    by decide, by decide⟩

end Session

end Synaptica.Tx
