import Synaptica.Cluster.DecisionLog
import Std.Data.HashMap.Lemmas

/-!
# Transactions in doubt

After a crash the coordinator has to resolve the transactions that were prepared and not decided.
`in_doubt_transactions` finds them in one pass over the log: a first `Prepare` puts a transaction into a
hash map, and a decision overwrites what is there. What the map holds does not depend on the order of
the entries (`getElem?_prepared`).
-/

namespace Synaptica.Cluster

/-- The order in which a hash map happens to yield its entries. -/
structure IterationOrder (α : Type) where
  order : List α → List α
  perm : ∀ entries, (order entries).Perm entries

namespace LogEntry

/-- The entry is a `Prepare` of the transaction. -/
def prepares (txId : DistributedTxId) : LogEntry → Bool
  | .prepare t _ => t == txId
  | _ => false

/-- The entry decides the transaction. -/
def decides (txId : DistributedTxId) : LogEntry → Bool
  | .commit t | .abort t => t == txId
  | .prepare _ _ => false

end LogEntry

namespace DistributedTxLog

instance : Hashable DistributedTxId := ⟨fun txId => hash txId.value⟩

/-- One turn of the loop: `entry(..).or_insert(true)`, or `insert(.., false)`. -/
def classify (prepared : Std.HashMap DistributedTxId Bool) : LogEntry → Std.HashMap DistributedTxId Bool
  | .prepare txId _ => prepared.insertIfNew txId true
  | .commit txId | .abort txId => prepared.insert txId false

/-- `in_doubt_transactions`. -/
def inDoubtTransactions (iteration : IterationOrder (DistributedTxId × Bool)) (log : DistributedTxLog) :
    List DistributedTxId :=
  let prepared := log.entries.foldl classify ∅
  (iteration.order prepared.toList).filterMap fun e => if e.2 then some e.1 else none

/-- What the entries say about a transaction: decided, or only prepared. -/
def verdict (txId : DistributedTxId) (entries : List LogEntry) : Option Bool :=
  if entries.any (LogEntry.decides txId) then some false
  else if entries.any (LogEntry.prepares txId) then some true
  else none

/-- One more entry: a decision settles the matter, a `Prepare` counts when nothing is known yet. -/
theorem verdict_concat (txId : DistributedTxId) (entries : List LogEntry) (entry : LogEntry) :
    verdict txId (entries ++ [entry]) =
      if entry.decides txId then some false
      else if entry.prepares txId then some ((verdict txId entries).getD true)
      else verdict txId entries := by
  simp only [verdict, List.any_append, List.any_cons, List.any_nil, Bool.or_false]
  cases entries.any (LogEntry.decides txId) <;> cases entries.any (LogEntry.prepares txId) <;>
    cases entry.decides txId <;> cases entry.prepares txId <;> rfl

/-- The loop has the verdict on each transaction, for every prefix of the log. -/
theorem getElem?_classify (entries : List LogEntry) (txId : DistributedTxId) :
    (entries.foldl classify ∅)[txId]? = verdict txId entries := by
  induction entries using List.reverseRecOn with
  | nil => simp [verdict]
  | append_singleton entries entry ih =>
    rw [List.foldl_append, verdict_concat, ← ih]
    show (classify (entries.foldl classify ∅) entry)[txId]? = _
    cases entry with
    | prepare t participants =>
      rw [classify, Std.HashMap.getElem?_insertIfNew]
      by_cases ht : t = txId
      · subst ht
        by_cases hseen : t ∈ entries.foldl classify ∅
        · simp [LogEntry.decides, LogEntry.prepares, hseen]
        · simp [LogEntry.decides, LogEntry.prepares, hseen]
      · simp [LogEntry.decides, LogEntry.prepares, ht]
    | commit t | abort t =>
      rw [classify, Std.HashMap.getElem?_insert]
      by_cases ht : t = txId
      · simp [LogEntry.decides, ht]
      · simp [LogEntry.decides, LogEntry.prepares, ht]

theorem verdict_eq_some_true {txId : DistributedTxId} {entries : List LogEntry} :
    verdict txId entries = some true ↔ (∃ participants, .prepare txId participants ∈ entries) ∧
      .commit txId ∉ entries ∧ .abort txId ∉ entries := by
  have hdecided : entries.any (LogEntry.decides txId) = true ↔
      .commit txId ∈ entries ∨ .abort txId ∈ entries := by
    rw [List.any_eq_true]
    constructor
    · rintro ⟨entry, hentry, h⟩
      cases entry with
      | prepare => cases h
      | commit t => exact .inl (eq_of_beq h ▸ hentry)
      | abort t => exact .inr (eq_of_beq h ▸ hentry)
    · rintro (h | h)
      · exact ⟨_, h, beq_self_eq_true txId⟩
      · exact ⟨_, h, beq_self_eq_true txId⟩
  have hprepared : entries.any (LogEntry.prepares txId) = true ↔
      ∃ participants, .prepare txId participants ∈ entries := by
    rw [List.any_eq_true]
    constructor
    · rintro ⟨entry, hentry, h⟩
      cases entry with
      | prepare t participants => exact ⟨participants, eq_of_beq h ▸ hentry⟩
      | commit => cases h
      | abort => cases h
    · rintro ⟨participants, h⟩
      exact ⟨_, h, beq_self_eq_true txId⟩
  rw [← hprepared, ← not_or, ← hdecided, verdict]
  cases entries.any (LogEntry.decides txId) <;> cases entries.any (LogEntry.prepares txId) <;> simp

/-- **Recovery finds exactly the transactions in doubt**, each once, whatever order the entries are in. -/
theorem inDoubtTransactions_spec (iteration : IterationOrder (DistributedTxId × Bool))
    (log : DistributedTxLog) :
    (log.inDoubtTransactions iteration).Nodup ∧
      ∀ txId, txId ∈ log.inDoubtTransactions iteration ↔
        (∃ participants, .prepare txId participants ∈ log.entries) ∧
          .commit txId ∉ log.entries ∧ .abort txId ∉ log.entries := by
  set prepared := log.entries.foldl classify ∅ with hprepared
  have hperm : (log.inDoubtTransactions iteration).Perm
      (prepared.toList.filterMap fun e => if e.2 then some e.1 else none) :=
    (iteration.perm prepared.toList).filterMap _
  constructor
  · rw [hperm.nodup_iff]
    apply List.Pairwise.filterMap _ _ Std.HashMap.distinct_keys_toList
    intro e e' hne i hi i' hi' heq
    split at hi
    · split at hi'
      · cases hi
        cases hi'
        simp [heq] at hne
      · cases hi'
    · cases hi
  · intro txId
    rw [hperm.mem_iff, List.mem_filterMap, ← verdict_eq_some_true, ← getElem?_classify, ← hprepared]
    constructor
    · rintro ⟨⟨i, inDoubt⟩, he, hi⟩
      cases inDoubt with
      | false => cases hi
      | true =>
        cases hi
        exact Std.HashMap.mem_toList_iff_getElem?_eq_some.mp he
    · intro h
      exact ⟨(txId, true), Std.HashMap.mem_toList_iff_getElem?_eq_some.mpr h, rfl⟩

end DistributedTxLog

end Synaptica.Cluster
