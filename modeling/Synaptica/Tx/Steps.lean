import Synaptica.Tx.Manager

/-!
# What one operation can do

Every claim about runs of a session needs the same case analysis of one step. `Session.Change`
lists, once, the six ways a session can move, with the guards each of them is taken under, and
`step_change` says there is no seventh. The invariants of the later files are proved by cases on it
and never open the definition of a step again.

The one invariant all of them share is here too: `Clocked`, the oracle's counter is ahead of
everything it has handed out.
-/

namespace Synaptica.Tx

open Storage

/-! ## Inversion of `commit` -/

namespace TransactionManager

/-- The manager after the commit of `tx` wrote `batch`. -/
def afterCommit (m : TransactionManager) (tx : Transaction) (batch : WriteBatch) :
    TransactionManager :=
  (({ m with db := m.db.write batch, oracle := m.oracle.next.2 }).recordCommit tx
    m.oracle.counter).persistPeriodically m.oracle.counter

/-- An active transaction without conflicts and with known column families commits. -/
theorem commit_eq {m : TransactionManager} {tx : Transaction} {batch : WriteBatch}
    (hact : tx.state = .active) (hconf : m.conflicts tx = false)
    (hbatch : MvccStore.versionedBatch tx.writes m.oracle.counter = .ok batch) :
    m.commit tx =
      (.ok m.oracle.counter, { tx with state := .committed }, m.afterCommit tx batch) := by
  simp [commit, hact, hconf, MvccStore.batchWriteAt, TimestampOracle.next, hbatch, bind,
    Except.bind, pure, Except.pure, afterCommit]

/-- A commit is refused outright, fails having spent a timestamp, or goes through. -/
theorem commit_cases (m : TransactionManager) (tx : Transaction) :
    (∃ e, m.commit tx = (.error e, tx, m)) ∨
    (∃ e, m.commit tx = (.error e, tx, { m with oracle := m.oracle.next.2 })) ∨
    (tx.state = .active ∧ m.conflicts tx = false ∧
      ∃ batch, MvccStore.versionedBatch tx.writes m.oracle.counter = .ok batch ∧
        m.commit tx =
          (.ok m.oracle.counter, { tx with state := .committed }, m.afterCommit tx batch)) := by
  by_cases hact : tx.state = .active
  · cases hconf : m.conflicts tx with
    | true =>
      left
      exact ⟨.writeConflict, by simp [commit, hact, hconf]⟩
    | false =>
      right
      cases hb : MvccStore.versionedBatch tx.writes m.oracle.counter with
      | error e =>
        left
        exact ⟨.mvcc e, by
          simp [commit, hact, hconf, MvccStore.batchWriteAt, TimestampOracle.next, hb, bind,
            Except.bind]⟩
      | ok batch =>
        right
        exact ⟨hact, rfl, batch, rfl, commit_eq hact hconf hb⟩
  · left
    exact ⟨.alreadyCommitted, by simp [commit, hact]⟩

@[simp] theorem afterCommit_oracle (m : TransactionManager) (tx : Transaction)
    (batch : WriteBatch) : (m.afterCommit tx batch).oracle = m.oracle.next.2 := by
  unfold afterCommit persistPeriodically
  split <;> rfl

@[simp] theorem afterCommit_committedWrites (m : TransactionManager) (tx : Transaction)
    (batch : WriteBatch) :
    (m.afterCommit tx batch).committedWrites =
      prune (m.committedWrites.insert m.oracle.counter tx.writeKeys) m.oracle.counter := by
  unfold afterCommit persistPeriodically
  split <;> rfl

/-- The store after a commit: the batch, and now and then the oracle's record. -/
theorem afterCommit_db (m : TransactionManager) (tx : Transaction) (batch : WriteBatch) :
    (m.afterCommit tx batch).db =
      if m.oracle.counter % 100 = 0 then
        MvccStore.persistTimestamp (m.db.write batch) m.oracle.next.2
      else m.db.write batch := by
  unfold afterCommit persistPeriodically
  split <;> rfl

end TransactionManager

/-! ## Inversion of a step -/

/-- The write an operation buffers, and in which transaction. -/
def Op.buffered : Op → Option (Nat × BufferedWrite)
  | .put i cfName key value => some (i, ⟨cfName, key, some value⟩)
  | .delete i cfName key => some (i, ⟨cfName, key, none⟩)
  | _ => none

/-- Responses that report a change of state. -/
def Response.effective : Response → Bool
  | .began => true
  | .done (.ok _) => true
  | .committed (.ok _) => true
  | _ => false

namespace Session

/-- The ways a session can move. -/
inductive Change (s : Session) : Op → Session → Prop where
  /-- Reads, refused operations and operations on no transaction. -/
  | idle (op : Op) (r : Response) (hr : r.effective = false) : Change s op (s.respond op r)
  | begin :
      Change s .begin
        ({ s with
            manager := { s.manager with oracle := s.manager.oracle.next.2 }
            txs := s.txs ++
              [Transaction.new s.manager.oracle.counter (s.manager.oracle.counter - 1)] }.respond
          .begin .began)
  | buffer {op : Op} {i : Nat} {w : BufferedWrite} {tx : Transaction}
      (hop : op.buffered = some (i, w)) (htx : s.txs[i]? = some tx) (hact : tx.state = .active) :
      Change s op
        ({ s with txs := s.txs.set i { tx with writeSet := tx.writeSet ++ [w] } }.respond op
          (.done (.ok ())))
  | rollback {i : Nat} {tx : Transaction} (htx : s.txs[i]? = some tx) (hact : tx.state = .active) :
      Change s (.rollback i)
        ({ s with txs := s.txs.set i { tx with state := .rolledBack } }.respond (.rollback i)
          (.done (.ok ())))
  /-- A commit that fails after drawing its timestamp. -/
  | spend {i : Nat} (e : TxError) :
      Change s (.commit i)
        ({ s with manager := { s.manager with oracle := s.manager.oracle.next.2 } }.respond
          (.commit i) (.committed (.error e)))
  | commit {i : Nat} {tx : Transaction} {batch : WriteBatch} (htx : s.txs[i]? = some tx)
      (hact : tx.state = .active) (hconf : s.manager.conflicts tx = false)
      (hbatch : MvccStore.versionedBatch tx.writes s.manager.oracle.counter = .ok batch) :
      Change s (.commit i)
        ({ s with
            manager := s.manager.afterCommit tx batch
            txs := s.txs.set i { tx with state := .committed } }.respond (.commit i)
          (.committed (.ok s.manager.oracle.counter)))

theorem set_self_of_getElem? {α : Type*} {l : List α} {i : Nat} {a : α} (h : l[i]? = some a) :
    l.set i a = l := by
  obtain ⟨hi, rfl⟩ := List.getElem?_eq_some_iff.mp h
  exact List.set_getElem_self hi

/-- Buffering a write is refused, or extends the write set of an active transaction. -/
theorem buffer_change (s : Session) (op : Op) {i : Nat} {w : BufferedWrite} {tx : Transaction}
    (hop : op.buffered = some (i, w)) (htx : s.txs[i]? = some tx) :
    Change s op ((s.update i (tx.buffer w)).respond op (.done ((tx.buffer w).map fun _ => ()))) := by
  by_cases hact : tx.state = .active
  · have hb : tx.buffer w = .ok { tx with writeSet := tx.writeSet ++ [w] } := by
      simp [Transaction.buffer, hact]
    rw [hb]
    exact .buffer hop htx hact
  · have hb : tx.buffer w = .error .notActive := by simp [Transaction.buffer, hact]
    rw [hb]
    exact .idle op _ rfl

/-- **There is no other way to move.** -/
theorem step_change (s : Session) (op : Op) : Change s op (s.step op) := by
  cases op with
  | begin => exact .begin
  | get i cfName key =>
    cases htx : s.txs[i]? with
    | none => simpa [step, htx] using Change.idle (s := s) (.get i cfName key) .noTransaction rfl
    | some tx =>
      simpa [step, htx] using
        Change.idle (s := s) (.get i cfName key) (.read (tx.get s.manager.db cfName key)) rfl
  | put i cfName key value =>
    cases htx : s.txs[i]? with
    | none =>
      simpa [step, htx] using Change.idle (s := s) (.put i cfName key value) .noTransaction rfl
    | some tx =>
      simpa [step, htx, Transaction.put] using
        s.buffer_change (.put i cfName key value) rfl htx
  | delete i cfName key =>
    cases htx : s.txs[i]? with
    | none => simpa [step, htx] using Change.idle (s := s) (.delete i cfName key) .noTransaction rfl
    | some tx =>
      simpa [step, htx, Transaction.delete] using
        s.buffer_change (.delete i cfName key) rfl htx
  | commit i =>
    cases htx : s.txs[i]? with
    | none => simpa [step, htx] using Change.idle (s := s) (.commit i) .noTransaction rfl
    | some tx =>
      rcases s.manager.commit_cases tx with ⟨e, he⟩ | ⟨e, he⟩ | ⟨hact, hconf, batch, hb, he⟩
      · simpa [step, htx, he, set_self_of_getElem? htx] using
          Change.idle (s := s) (.commit i) (.committed (.error e)) rfl
      · simpa [step, htx, he, set_self_of_getElem? htx] using Change.spend (s := s) (i := i) e
      · simpa [step, htx, he] using Change.commit htx hact hconf hb
  | rollback i =>
    cases htx : s.txs[i]? with
    | none => simpa [step, htx] using Change.idle (s := s) (.rollback i) .noTransaction rfl
    | some tx =>
      by_cases hact : tx.state = .active
      · simpa [step, htx, TransactionManager.rollback, hact, update, Except.map] using
          Change.rollback htx hact
      · simpa [step, htx, TransactionManager.rollback, hact, update, Except.map] using
          Change.idle (s := s) (.rollback i) (.done (.error .notActive)) rfl

/-- The step of a commit that goes through. -/
theorem step_commit {s : Session} {i : Nat} {tx : Transaction} {b : WriteBatch}
    (htx : s.txs[i]? = some tx) (hact : tx.state = .active)
    (hconf : s.manager.conflicts tx = false)
    (hbatch : MvccStore.versionedBatch tx.writes s.manager.oracle.counter = .ok b) :
    s.step (.commit i) =
      { s with
          manager := s.manager.afterCommit tx b
          txs := s.txs.set i { tx with state := .committed } }.respond (.commit i)
        (.committed (.ok s.manager.oracle.counter)) := by
  simp [step, htx, TransactionManager.commit_eq hact hconf hbatch]

/-! ## The oracle is ahead -/

theorem toNat_succ {c : UInt64} (h : c ≠ u64Max) : (c + 1).toNat = c.toNat + 1 := by
  have hne : c.toNat ≠ 2 ^ 64 - 1 := by
    intro hc
    exact h (UInt64.toNat_inj.mp (by rw [hc]; rfl))
  have := UInt64.toNat_lt c
  rw [UInt64.toNat_add, UInt64.toNat_one, Nat.mod_eq_of_lt (by omega)]

theorem toNat_pred {c : UInt64} (h : 0 < c.toNat) : (c - 1).toNat = c.toNat - 1 := by
  have hle : (1 : UInt64) ≤ c := UInt64.le_iff_toNat_le.mpr h
  rw [UInt64.toNat_sub_of_le c 1 hle, UInt64.toNat_one]

/-- The counter is above every snapshot it has given out. -/
structure Clocked (s : Session) : Prop where
  pos : 0 < s.manager.oracle.counter.toNat
  ahead : ∀ tx ∈ s.txs, tx.snapshotTs < s.manager.oracle.counter

theorem clocked_init : Clocked init where
  pos := by decide
  ahead := by simp [init]

/-- Replacing a transaction by one with the same snapshot keeps every bound on snapshots. -/
theorem forall_mem_set {P : Transaction → Prop} {txs : List Transaction} {i : Nat}
    {tx u : Transaction} (htx : txs[i]? = some tx) (h : ∀ t ∈ txs, P t) (hP : P tx → P u) :
    ∀ t ∈ txs.set i u, P t := by
  intro t ht
  rcases List.mem_or_eq_of_mem_set ht with hmem | rfl
  · exact h t hmem
  · exact hP (h tx (List.mem_of_getElem? htx))

theorem Clocked.tick {s : Session} (h : Clocked s) (hleft : s.TimestampLeft) :
    0 < (s.manager.oracle.counter + 1).toNat ∧
      ∀ tx ∈ s.txs, tx.snapshotTs < s.manager.oracle.counter + 1 := by
  have hsucc := toNat_succ hleft
  refine ⟨by omega, fun tx htx => ?_⟩
  have := UInt64.lt_iff_toNat_lt.mp (h.ahead tx htx)
  rw [UInt64.lt_iff_toNat_lt, hsucc]
  omega

theorem Clocked.step {s : Session} (h : Clocked s) (hleft : s.TimestampLeft) (op : Op) :
    Clocked (s.step op) := by
  obtain ⟨hpos, hahead⟩ := h.tick hleft
  generalize hs' : s.step op = s'
  have hc : Change s op s' := hs' ▸ s.step_change op
  cases hc with
  | idle _ r _ => exact ⟨h.pos, h.ahead⟩
  | begin =>
    refine ⟨hpos, fun tx htx => ?_⟩
    rcases List.mem_append.mp htx with hmem | hnew
    · exact hahead tx hmem
    · obtain rfl := List.mem_singleton.mp hnew
      have hpred := toNat_pred h.pos
      have hsucc := toNat_succ hleft
      show s.manager.oracle.counter - 1 < s.manager.oracle.counter + 1
      rw [UInt64.lt_iff_toNat_lt, hpred, hsucc]
      omega
  | buffer _ htx _ => exact ⟨h.pos, forall_mem_set htx h.ahead id⟩
  | rollback htx _ => exact ⟨h.pos, forall_mem_set htx h.ahead id⟩
  | spend e => exact ⟨hpos, hahead⟩
  | @commit i tx batch htx _ _ _ =>
    constructor
    · simpa [respond, TimestampOracle.next] using hpos
    · have := forall_mem_set (P := fun t => t.snapshotTs < s.manager.oracle.counter + 1) htx hahead
        (u := { tx with state := .committed }) id
      simpa [respond, TimestampOracle.next] using this

/-- An operation takes at most one timestamp. -/
theorem counter_step (s : Session) (op : Op) :
    (s.step op).manager.oracle.counter = s.manager.oracle.counter ∨
      (s.step op).manager.oracle.counter = s.manager.oracle.counter + 1 := by
  generalize hs' : s.step op = s'
  have hc : Change s op s' := hs' ▸ s.step_change op
  cases hc with
  | idle | buffer | rollback => exact .inl rfl
  | begin | spend => exact .inr rfl
  | commit =>
    right
    simp [respond, TimestampOracle.next]

/-- Runs short enough do not exhaust the timestamps. -/
theorem timestampLeft_of_length {s : Session} {ops : List Op}
    (h : s.manager.oracle.counter.toNat + ops.length < 2 ^ 64) :
    Run.Each step (fun s _ => s.TimestampLeft) s ops := by
  induction ops generalizing s with
  | nil => trivial
  | cons op ops ih =>
    rw [List.length_cons] at h
    have hleft : s.TimestampLeft := by
      intro hmax
      rw [hmax, show u64Max.toNat = 2 ^ 64 - 1 from rfl] at h
      omega
    refine ⟨hleft, ih ?_⟩
    rcases s.counter_step op with hc | hc
    · rw [hc]
      omega
    · rw [hc, toNat_succ hleft]
      omega

end Session

end Synaptica.Tx
