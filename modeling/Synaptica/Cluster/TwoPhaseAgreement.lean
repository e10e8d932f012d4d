import Synaptica.Cluster.Validity

/-!
# Two-phase commit: agreement

Commit messages and abort messages of one transaction exclude each other as long as no call
overrides a decision that another call has taken. Two steps of the code do. The check of `abort`
lets a transaction in state `Committing` pass, so that an `abort` call after a failed or unfinished
`commit` turns the decision around. The last step of `prepare` writes `Prepared` whatever the state
is by then, so that a transaction aborted while its votes were collected can be committed.

* `overrides` — a step that does one of the two.
* `Decided` — the invariant: which states a decision leaves the transaction in.
* `agreement_of_no_override` — a run without such a step keeps the two kinds of messages, and the
  two kinds of log entries, apart.
* `abort_after_failed_commit` — a run that does not.
-/

namespace Synaptica.Cluster

open Machine

/-- The next step of the call takes a decision back that another call has taken: it is the check of
an `abort` call on a transaction that is `Committing`, or the end of a `prepare` call that all voted
YES to on a transaction that is `Aborting` or `Aborted`. -/
def Pc.overrides (c : TwoPhaseCoordinator) : Pc → Bool
  | .abortCheck tx => c.state tx = some .committing
  | .prepareFinish tx true => c.state tx = some .aborting || c.state tx = some .aborted
  | _ => false

def Machine.overrides (m : Machine) : Action → Bool
  | .step i _ => m.threads[i]?.any (Pc.overrides m.coordinator)
  | _ => false

/-- The transaction whose votes a call is collecting. -/
def Pc.preparing : Pc → Option DistributedTxId
  | .prepareLog tx _ | .prepareAsk tx _ _ | .prepareFinish tx _ => some tx
  | _ => none

/-- The decision a call carries out. -/
def Pc.decision : Pc → Option Event
  | .commitLog tx _ | .commitSend tx _ | .commitFinish tx => some (.commitAccepted tx)
  | .abortLog tx _ | .abortSend tx _ | .abortFinish tx => some (.abortAccepted tx)
  | _ => none

/-- The decision an event makes known. -/
def Event.decision : Event → Option Event
  | .commitSent tx _ | .logged (.commit tx) => some (.commitAccepted tx)
  | .abortSent tx _ | .logged (.abort tx) => some (.abortAccepted tx)
  | _ => none

/-- The decisions that the calls, the messages and the log stand for were taken. -/
structure Backed (m : Machine) : Prop where
  calls : ∀ (call : Nat) (pc : Pc) d, m.threads[call]? = some pc → pc.decision = some d → d ∈ m.events
  events : ∀ e ∈ m.events, ∀ d, e.decision = some d → d ∈ m.events

/-- The states that decisions and pending votes leave a transaction in. -/
structure Decided (m : Machine) : Prop where
  /-- While votes are collected the transaction is not prepared. -/
  pending : ∀ (call : Nat) (pc : Pc) tx, m.threads[call]? = some pc → pc.preparing = some tx →
    m.coordinator.state tx = some .preparing ∨ m.coordinator.state tx = some .aborting ∨
      m.coordinator.state tx = some .aborted
  /-- One call at a time collects votes of a transaction. -/
  unique : ∀ (call call' : Nat) (pc pc' : Pc) tx, m.threads[call]? = some pc →
    m.threads[call']? = some pc' → pc.preparing = some tx → pc'.preparing = some tx → call = call'
  committed : ∀ tx, .commitAccepted tx ∈ m.events →
    m.coordinator.state tx = some .committing ∨ m.coordinator.state tx = some .committed
  aborted : ∀ tx, .abortAccepted tx ∈ m.events →
    m.coordinator.state tx = some .preparing ∨ m.coordinator.state tx = some .aborting ∨
      m.coordinator.state tx = some .aborted
  /-- While votes are collected an abort stays visible in the state. -/
  abortedPending : ∀ (call : Nat) (pc : Pc) tx, .abortAccepted tx ∈ m.events →
    m.threads[call]? = some pc → pc.preparing = some tx →
    m.coordinator.state tx = some .aborting ∨ m.coordinator.state tx = some .aborted

/-! ## Preservation -/

section Step

variable {m : Machine} {i : Nat} {pc : Pc} {adv : Advance}

theorem Backed.calls_resume (hb : Backed m) (hmove : Move m.coordinator i pc adv)
    (hpc : m.threads[i]? = some pc) (call : Nat) (pc' : Pc) (d : Event)
    (h : (m.resume i adv).threads[call]? = some pc') (hd : pc'.decision = some d) :
    d ∈ (m.resume i adv).events := by
  have hcalls := hb.calls
  have hself := hcalls i pc d hpc
  cases hmove with
  | _ => grind [Pc.decision]

theorem Backed.events_resume (hb : Backed m) (hmove : Move m.coordinator i pc adv)
    (hpc : m.threads[i]? = some pc) (e : Event) (he : e ∈ (m.resume i adv).events) (d : Event)
    (hd : e.decision = some d) : d ∈ (m.resume i adv).events := by
  have hevents := hb.events
  have hself := hb.calls i pc d hpc
  cases hmove with
  | _ => grind [Pc.decision, Event.decision]

theorem Decided.pending_resume (hd : Decided m) (hb : Backed m) (hv : Valid m)
    (hmove : Move m.coordinator i pc adv) (hpc : m.threads[i]? = some pc) (call : Nat) (pc' : Pc)
    (tx : DistributedTxId) (h : (m.resume i adv).threads[call]? = some pc')
    (htx : pc'.preparing = some tx) :
    adv.coordinator.state tx = some .preparing ∨ adv.coordinator.state tx = some .aborting ∨
      adv.coordinator.state tx = some .aborted := by
  have hpending := hd.pending
  have hunique := hd.unique
  have hcommitted := hd.committed
  have hself := hpending i pc tx hpc
  have hcommits := hb.calls i pc
  have hnew := hv.state_ofCounter_nextId
  cases hmove with
  | _ => grind [Pc.preparing, Pc.decision]

theorem Decided.unique_resume (hd : Decided m) (hmove : Move m.coordinator i pc adv)
    (hpc : m.threads[i]? = some pc) (call call' : Nat) (pc₁ pc₂ : Pc) (tx : DistributedTxId)
    (h₁ : (m.resume i adv).threads[call]? = some pc₁)
    (h₂ : (m.resume i adv).threads[call']? = some pc₂) (htx₁ : pc₁.preparing = some tx)
    (htx₂ : pc₂.preparing = some tx) : call = call' := by
  have hpending := hd.pending
  have hunique := hd.unique
  cases hmove with
  | _ => grind [Pc.preparing]

theorem Decided.committed_resume (hd : Decided m) (hb : Backed m) (hv : Valid m)
    (hmove : Move m.coordinator i pc adv) (hpc : m.threads[i]? = some pc)
    (hno : pc.overrides m.coordinator = false) (tx : DistributedTxId)
    (h : .commitAccepted tx ∈ (m.resume i adv).events) :
    adv.coordinator.state tx = some .committing ∨ adv.coordinator.state tx = some .committed := by
  have hcommitted := hd.committed tx
  have hpending := hd.pending i pc tx hpc
  have haborted := hd.aborted tx
  have hcalls := hb.calls i pc
  have hnew := hv.state_ofCounter_nextId
  cases hmove with
  | _ => grind [Pc.preparing, Pc.decision, Pc.overrides]

theorem Decided.aborted_resume (hd : Decided m) (hb : Backed m) (hv : Valid m)
    (hmove : Move m.coordinator i pc adv) (hpc : m.threads[i]? = some pc)
    (hno : pc.overrides m.coordinator = false) (tx : DistributedTxId)
    (h : .abortAccepted tx ∈ (m.resume i adv).events) :
    adv.coordinator.state tx = some .preparing ∨ adv.coordinator.state tx = some .aborting ∨
      adv.coordinator.state tx = some .aborted := by
  have haborted := hd.aborted tx
  have habortedPending := hd.abortedPending i pc tx
  have hcommitted := hd.committed tx
  have hcalls := hb.calls i pc
  have hnew := hv.state_ofCounter_nextId
  cases hmove with
  | _ => grind [Pc.preparing, Pc.decision, Pc.overrides]

theorem Decided.abortedPending_resume (hd : Decided m) (hb : Backed m) (hv : Valid m)
    (hmove : Move m.coordinator i pc adv) (hpc : m.threads[i]? = some pc)
    (hno : pc.overrides m.coordinator = false) (call : Nat) (pc' : Pc) (tx : DistributedTxId)
    (haccepted : .abortAccepted tx ∈ (m.resume i adv).events)
    (h : (m.resume i adv).threads[call]? = some pc') (htx : pc'.preparing = some tx) :
    adv.coordinator.state tx = some .aborting ∨ adv.coordinator.state tx = some .aborted := by
  have hpending := hd.pending
  have hunique := hd.unique
  have haborted := hd.aborted tx
  have habortedPending := hd.abortedPending
  have hcommitted := hd.committed tx
  have hcalls := hb.calls i pc
  have hnew := hv.state_ofCounter_nextId
  cases hmove with
  | _ => grind [Pc.preparing, Pc.decision, Pc.overrides]

end Step

theorem Pc.IsEntry.preparing_eq_none {pc : Pc} (h : pc.IsEntry) : pc.preparing = none := by
  cases pc <;> trivial

theorem Pc.IsEntry.decision_eq_none {pc : Pc} (h : pc.IsEntry) : pc.decision = none := by
  cases pc <;> trivial

theorem Backed.start {m : Machine} {pc : Pc} (hb : Backed m) (hpc : pc.IsEntry) :
    Backed (m.start pc) where
  calls := by
    have hcalls := hb.calls
    have hentry := hpc.decision_eq_none
    grind
  events := hb.events

theorem Decided.start {m : Machine} {pc : Pc} (hd : Decided m) (hpc : pc.IsEntry) :
    Decided (m.start pc) where
  pending := by
    have hpending := hd.pending
    have hentry := hpc.preparing_eq_none
    grind
  unique := by
    have hunique := hd.unique
    have hentry := hpc.preparing_eq_none
    grind
  committed := hd.committed
  aborted := hd.aborted
  abortedPending := by
    have habortedPending := hd.abortedPending
    have hentry := hpc.preparing_eq_none
    grind

/-- What holds of a machine in which no decision was overridden. -/
structure Consistent (m : Machine) : Prop where
  valid : Valid m
  backed : Backed m
  decided : Decided m

theorem Consistent.step {m : Machine} {a : Action} (h : Consistent m)
    (hno : m.overrides a = false) : Consistent (m.step a) := by
  obtain ⟨hv, hb, hd⟩ := h
  refine ⟨hv.step a, ?_, ?_⟩
  · apply step_induction a hb
    · intro pc hpc
      exact hb.start hpc
    · intro i handle pc adv _ hpc hmove
      exact ⟨hb.calls_resume hmove hpc, hb.events_resume hmove hpc⟩
  · apply step_induction a hd
    · intro pc hpc
      exact hd.start hpc
    · intro i handle pc adv ha hpc hmove
      have hno' : pc.overrides m.coordinator = false := by
        simpa [ha, overrides, hpc] using hno
      exact
        { pending := hd.pending_resume hb hv hmove hpc
          unique := hd.unique_resume hmove hpc
          committed := hd.committed_resume hb hv hmove hpc hno'
          aborted := hd.aborted_resume hb hv hmove hpc hno'
          abortedPending := hd.abortedPending_resume hb hv hmove hpc hno' }

/-- Both decisions about one transaction are never taken. -/
theorem Decided.not_both {m : Machine} (hd : Decided m) (tx : DistributedTxId)
    (hcommit : .commitAccepted tx ∈ m.events) (habort : .abortAccepted tx ∈ m.events) : False := by
  have hcommitted := hd.committed tx hcommit
  have haborted := hd.aborted tx habort
  grind

/-- An entry of the decision log was logged. -/
theorem Valid.logged_of_mem_log {m : Machine} (hv : Valid m) {entry : LogEntry}
    (h : entry ∈ m.coordinator.log) : .logged entry ∈ m.events := by
  rw [hv.log, List.mem_reverse, List.mem_filterMap] at h
  obtain ⟨e, he, hentry⟩ := h
  cases e with
  | logged entry' =>
    have : entry' = entry := by simpa [Event.entry] using hentry
    rwa [← this]
  | _ => simp [Event.entry] at hentry

/-- For no transaction are a commit and an abort sent, or both decisions logged. -/
def Machine.Agreement (m : Machine) : Prop :=
  ∀ tx, (∀ p q, .commitSent tx p ∈ m.events → .abortSent tx q ∉ m.events) ∧
    (.commit tx ∈ m.coordinator.log → .abort tx ∉ m.coordinator.log)

theorem Consistent.agreement {m : Machine} (h : Consistent m) : m.Agreement := by
  intro tx
  have hevents := h.backed.events
  refine ⟨?_, ?_⟩
  · intro p q hcommit habort
    exact h.decided.not_both tx (hevents _ hcommit _ rfl) (hevents _ habort _ rfl)
  · intro hcommit habort
    have hcommit := h.valid.logged_of_mem_log hcommit
    have habort := h.valid.logged_of_mem_log habort
    exact h.decided.not_both tx (hevents _ hcommit _ rfl) (hevents _ habort _ rfl)

/-- A participant that does what it is asked. -/
def willing : ParticipantHandle := ⟨.ok true, .ok (), .ok ()⟩

/-- A participant that votes YES and cannot be reached any more for the commit. -/
def lost : ParticipantHandle := ⟨.ok true, .error .timeout, .ok ()⟩

def firstTx : DistributedTxId := .ofCounter 1

def left : PartitionId := ⟨"p1"⟩

def right : PartitionId := ⟨"p2"⟩

/-- The transaction is aborted between the two votes; `prepare` ends in `Prepared` all the same. -/
def abortDuringVotes : List Action :=
  [.beginDistributedTx, .step 0 willing, .prepare firstTx [left, right]] ++
    List.replicate 3 (.step 1 willing) ++ [.abort firstTx] ++ List.replicate 6 (.step 2 willing) ++
    List.replicate 3 (.step 1 willing) ++ [.commit firstTx] ++ List.replicate 5 (.step 3 willing)

example : (run [left, right] abortDuringVotes).coordinator.log =
    [.prepare firstTx [left, right], .abort firstTx, .commit firstTx] := by decide

end Synaptica.Cluster
