import Synaptica.Cluster.LogContiguity
import Synaptica.Storage.CrashConsistency

/-!
# Committed entries across crashes

`apply_to_state_machine` writes the log id of an entry as the last applied one and then applies the
entry. Raft resumes behind the last applied log id, so that an entry whose marker was written and
whose effect was not is never applied.

* `Replica` — the state that entries are applied to, `effect` — what one entry does to it.
* `View` — what the store says about the replica and the last applied log id.
* `appliedOnce_iff` — crash, restart and resumption amount to applying every entry once exactly when
  the crash does not separate a marker from its effect, or that effect makes no difference.
-/

namespace Synaptica.Cluster

open Storage RocksLogStore

/-! ## The state that entries are applied to -/

/-- The column families the Raft store writes. -/
def IsRaft (cf : ColumnFamily) : Prop := cf = .raftLog ∨ cf = .raftMeta

instance : DecidablePred IsRaft := fun cf =>
  inferInstanceAs (Decidable (cf = .raftLog ∨ cf = .raftMeta))

/-- The graphs in a database: everything but the column families of the Raft store. -/
def graphsOf (db : Db) : Db := fun cf => if IsRaft cf then ∅ else db cf

structure Replica where
  graphs : Db
  membership : StoredMembership

/-- What is assumed of the applier: a statement is one atomic write, it writes graphs, and what it
does depends on them only. -/
structure StateMachineApplier.Atomic (applier : StateMachineApplier) : Prop where
  atomic : ∀ request db, (applier.apply request db).2.length ≤ 1
  writes : ∀ request db, ∀ batch ∈ (applier.apply request db).2, ∀ op ∈ batch, ¬ IsRaft op.cf
  reads : ∀ request db, applier.apply request db = applier.apply request (graphsOf db)

/-- The writes that execute a request. -/
def requestWrites (applier : Option StateMachineApplier) (request : RaftRequest) (db : Db) :
    List WriteBatch :=
  match applier with
  | none => []
  | some applier => (applier.apply request db).2

/-- What an entry does, once. -/
def effect (applier : Option StateMachineApplier) (r : Replica) (entry : Entry) : Replica :=
  match entry.payload with
  | .blank => r
  | .membership mem => { r with membership := ⟨some entry.logId, mem⟩ }
  | .normal request =>
    { r with graphs := Writable.writeAll r.graphs (requestWrites applier request r.graphs) }

/-- What a list of entries does, each once and in order. -/
def effects (applier : Option StateMachineApplier) (r : Replica) (entries : List Entry) : Replica :=
  entries.foldl (effect applier) r

variable (bin : RaftBincode) (applier : Option StateMachineApplier)

/-- The store reports the last applied log id and holds the replica. -/
structure View (db : Db) (last : Option LogId) (r : Replica) : Prop where
  reported : lastAppliedState bin db = .ok (last, r.membership)
  graphs : graphsOf db = r.graphs

/-- The entries that follow a log id. -/
def entriesAfter (last : Option LogId) (entries : List Entry) : List Entry :=
  match last with
  | none => entries
  | some id => entries.filter fun e => id < e.logId

/-- The entry can be written. -/
def Entry.Serializable (entry : Entry) : Prop :=
  (∃ bytes, bin.logId.serialize entry.logId = .ok bytes) ∧
    ∀ mem, entry.payload = .membership mem →
      ∃ bytes, bin.membership.serialize ⟨some entry.logId, mem⟩ = .ok bytes

/-- Committed entries behind the last applied one. -/
structure Committed (last : Option LogId) (entries : List Entry) : Prop where
  serializable : ∀ e ∈ entries, e.Serializable bin
  increasing : entries.Pairwise fun a b => a.logId < b.logId
  behind : ∀ l, last = some l → ∀ e ∈ entries, l < e.logId

/-- The entries are applied with a crash after `n` durable writes; Raft then applies the entries
that follow the last applied log id the reopened store reports. In the end the replica is the one
that applying every entry once and in order gives. -/
def AppliedOnce (db : Db) (r : Replica) (entries : List Entry) (n : Nat) : Prop :=
  ∃ last mem,
    lastAppliedState bin (Journaled.crash (applyToStateMachine bin applier entries) n db) =
        .ok (last, mem) ∧
      ∃ last', View bin
        (Journaled.exec (applyToStateMachine bin applier (entriesAfter last entries))
          (Journaled.crash (applyToStateMachine bin applier entries) n db))
        last' (effects applier r entries)

/-- The crash falls between the marker of the entry behind `done` and the write that applies it. -/
def CutsOff (db : Db) (n : Nat) (done : List Entry) (entry : Entry) : Prop :=
  n = (applyToStateMachine bin applier done db).writes.length + 1 ∧
    (applyEntry bin applier entry
      (Journaled.exec (applyToStateMachine bin applier done) db)).writes.length = 2

/-! ## Graphs and metadata -/

section Frame

variable {db : Db}

theorem graphsOf_write_raft {batch : WriteBatch} (h : ∀ op ∈ batch, IsRaft op.cf) :
    graphsOf (db.write batch) = graphsOf db := by
  funext cf
  unfold graphsOf
  by_cases hcf : IsRaft cf
  · simp [hcf]
  · rw [if_neg hcf, if_neg hcf]
    apply Db.write_of_forall_cf_ne
    rintro op hop rfl
    exact hcf (h op hop)

theorem graphsOf_write_graph {batch : WriteBatch} (h : ∀ op ∈ batch, ¬ IsRaft op.cf) :
    graphsOf (db.write batch) = (graphsOf db).write batch := by
  funext cf
  by_cases hcf : IsRaft cf
  · have hsame : (graphsOf db).write batch cf = graphsOf db cf := by
      apply Db.write_of_forall_cf_ne
      rintro op hop rfl
      exact h op hop hcf
    rw [hsame]
    simp [graphsOf, hcf]
  · have hcong : (graphsOf db).write batch cf = db.write batch cf :=
      Db.write_congr (by simp [graphsOf, hcf]) batch
    rw [hcong]
    simp [graphsOf, hcf]

theorem graphsOf_graphsOf (db : Db) : graphsOf (graphsOf db) = graphsOf db := by
  funext cf
  by_cases hcf : IsRaft cf <;> simp [graphsOf, hcf]

theorem graphsOf_writeAll_graph {writes : List WriteBatch}
    (h : ∀ batch ∈ writes, ∀ op ∈ batch, ¬ IsRaft op.cf) :
    graphsOf (Writable.writeAll db writes) = Writable.writeAll (graphsOf db) writes := by
  induction writes generalizing db with
  | nil => rfl
  | cons batch writes ih =>
    have hbatch := h batch List.mem_cons_self
    rw [Writable.writeAll_cons, Writable.writeAll_cons,
      ih fun b hb => h b (List.mem_cons_of_mem _ hb)]
    exact congrArg (Writable.writeAll · writes) (graphsOf_write_graph hbatch)

theorem raftMeta_writeAll_graph {writes : List WriteBatch}
    (h : ∀ batch ∈ writes, ∀ op ∈ batch, ¬ IsRaft op.cf) :
    Writable.writeAll db writes .raftMeta = db .raftMeta := by
  induction writes generalizing db with
  | nil => rfl
  | cons batch writes ih =>
    rw [Writable.writeAll_cons, ih fun b hb => h b (List.mem_cons_of_mem _ hb)]
    apply Db.write_of_forall_cf_ne
    rintro op hop hcf
    exact h batch List.mem_cons_self op hop (Or.inr hcf)

theorem lastAppliedState_congr {db' : Db} (h : db .raftMeta = db' .raftMeta) :
    lastAppliedState bin db = lastAppliedState bin db' := by
  unfold lastAppliedState metaGet
  rw [h]

end Frame

/-! ## One entry -/

section OneEntry

variable {bin applier} {db : Db} {last : Option LogId} {r : Replica}

theorem metaGet_put_self {α : Type} {c : Codec α} {key value : Bytes}
    {err : String → StorageIoError} {a : α} (h : c.deserialize value = .ok a) :
    metaGet c key err (db.write [.put .raftMeta key value]) = .ok (some a) := by
  unfold metaGet
  rw [Db.write_cons, Db.write_nil, Db.getElem?_apply, if_pos ⟨rfl, rfl⟩]
  simp [WriteOp.result, h, Except.mapError, pure, Except.pure, bind, Except.bind]

theorem metaGet_put_of_ne {α : Type} {c : Codec α} {key key' value : Bytes}
    {err : String → StorageIoError} (h : key ≠ key') :
    metaGet c key' err (db.write [.put .raftMeta key value]) = metaGet c key' err db := by
  unfold metaGet
  rw [Db.write_cons, Db.write_nil, Db.getElem?_apply, if_neg fun hcf => h hcf.2]

theorem lastAppliedState_eq_ok {mem : StoredMembership} :
    lastAppliedState bin db = .ok (last, mem) ↔
      metaGet bin.logId lastAppliedKey .readStateMachine db = .ok last ∧
        ∃ m, metaGet bin.membership lastMembershipKey .readStateMachine db = .ok m ∧
          m.getD .default = mem := by
  unfold lastAppliedState
  cases metaGet bin.logId lastAppliedKey .readStateMachine db with
  | error e => simp [bind, Except.bind]
  | ok l =>
    cases metaGet bin.membership lastMembershipKey .readStateMachine db with
    | error e => simp [bind, Except.bind]
    | ok m => simp [bind, Except.bind, pure, Except.pure]

/-- The marker. -/
theorem View.put_marker (h : View bin db last r) {id : LogId} {bytes : Bytes}
    (hbytes : bin.logId.deserialize bytes = .ok id) :
    View bin (db.write [.put .raftMeta lastAppliedKey bytes]) (some id) r where
  reported := by
    obtain ⟨-, m, hm, hmem⟩ := lastAppliedState_eq_ok.mp h.reported
    have hne : lastAppliedKey ≠ lastMembershipKey := by decide
    exact lastAppliedState_eq_ok.mpr
      ⟨metaGet_put_self hbytes, m, (metaGet_put_of_ne hne).trans hm, hmem⟩
  graphs := by
    rw [graphsOf_write_raft (by simp [WriteOp.cf, IsRaft]), h.graphs]

/-- The record of a membership. -/
theorem View.put_membership (h : View bin db last r) {mem : StoredMembership} {bytes : Bytes}
    (hbytes : bin.membership.deserialize bytes = .ok mem) :
    View bin (db.write [.put .raftMeta lastMembershipKey bytes]) last
      { r with membership := mem } where
  reported := by
    obtain ⟨hlast, -⟩ := lastAppliedState_eq_ok.mp h.reported
    have hne : lastMembershipKey ≠ lastAppliedKey := by decide
    exact lastAppliedState_eq_ok.mpr
      ⟨(metaGet_put_of_ne hne).trans hlast, some mem, metaGet_put_self hbytes, rfl⟩
  graphs := by
    rw [graphsOf_write_raft (by simp [WriteOp.cf, IsRaft]), h.graphs]

theorem requestWrites_spec (happlier : ∀ a, applier = some a → a.Atomic) (request : RaftRequest)
    (db : Db) : (requestWrites applier request db).length ≤ 1 ∧
      (∀ batch ∈ requestWrites applier request db, ∀ op ∈ batch, ¬ IsRaft op.cf) ∧
      requestWrites applier request db = requestWrites applier request (graphsOf db) := by
  cases applier with
  | none => simp [requestWrites]
  | some a =>
    have ha := happlier a rfl
    exact ⟨ha.atomic request db, ha.writes request db, congrArg Prod.snd (ha.reads request db)⟩

/-- An executed request. -/
theorem View.request (h : View bin db last r) (happlier : ∀ a, applier = some a → a.Atomic)
    (request : RaftRequest) :
    View bin (Writable.writeAll db (requestWrites applier request db)) last
      { r with graphs := Writable.writeAll r.graphs (requestWrites applier request r.graphs) } where
  reported := by
    have hwrites := (requestWrites_spec happlier request db).2.1
    rw [lastAppliedState_congr bin (raftMeta_writeAll_graph hwrites)]
    exact h.reported
  graphs := by
    obtain ⟨-, hwrites, hreads⟩ := requestWrites_spec happlier request db
    rw [graphsOf_writeAll_graph hwrites, hreads, h.graphs]

/-- The writes that apply an entry, after its marker. -/
def effectWrites (bin : RaftBincode) (applier : Option StateMachineApplier) (entry : Entry)
    (db : Db) : List WriteBatch :=
  match entry.payload with
  | .blank => []
  | .membership mem =>
    match bin.membership.serialize ⟨some entry.logId, mem⟩ with
    | .ok bytes => [[.put .raftMeta lastMembershipKey bytes]]
    | .error _ => []
  | .normal request => requestWrites applier request db

theorem View.effect (h : View bin db last r) (hbin : bin.RoundTrips)
    (happlier : ∀ a, applier = some a → a.Atomic) {entry : Entry} (hser : entry.Serializable bin) :
    View bin (Writable.writeAll db (effectWrites bin applier entry db)) last
      (effect applier r entry) := by
  unfold effectWrites Cluster.effect
  cases hpayload : entry.payload with
  | blank => exact h
  | membership mem =>
    obtain ⟨bytes, hbytes⟩ := hser.2 mem hpayload
    simp only [hbytes]
    exact h.put_membership (hbin.membership _ _ hbytes)
  | normal request => exact h.request happlier request

theorem length_effectWrites_le (bin : RaftBincode) (happlier : ∀ a, applier = some a → a.Atomic) (entry : Entry)
    (db : Db) : (effectWrites bin applier entry db).length ≤ 1 := by
  unfold effectWrites
  split
  next => simp
  next => split <;> simp
  next request _ => exact (requestWrites_spec happlier request db).1

theorem applyPayload_eq (applier : Option StateMachineApplier) {entry : Entry}
    (hser : entry.Serializable bin) (db : Db) :
    ∃ response, applyPayload bin applier entry db =
      ⟨.ok response, effectWrites bin applier entry db⟩ := by
  unfold applyPayload effectWrites
  cases hpayload : entry.payload with
  | blank => exact ⟨.ok, rfl⟩
  | membership mem =>
    obtain ⟨bytes, hbytes⟩ := hser.2 mem hpayload
    refine ⟨.ok, (Journaled.bind_ok (a := bytes) ?_).trans ?_⟩
    · simp [Journaled.read_apply, hbytes, Except.mapError]
    · simp only [hbytes]
      rfl
  | normal request =>
    unfold applyRequest requestWrites
    cases applier with
    | none => exact ⟨.ok, rfl⟩
    | some a => exact ⟨(a.apply request db).1, rfl⟩

/-- What `applyEntry` writes: the marker, then the entry. -/
theorem applyEntry_eq (applier : Option StateMachineApplier) {entry : Entry}
    (hser : entry.Serializable bin) {bytes : Bytes} (hbytes : bin.logId.serialize entry.logId = .ok bytes) (db : Db) :
    ∃ response, applyEntry bin applier entry db =
      ⟨.ok response, [.put .raftMeta lastAppliedKey bytes] ::
        effectWrites bin applier entry (db.write [.put .raftMeta lastAppliedKey bytes])⟩ := by
  obtain ⟨response, hpayload⟩ := applyPayload_eq applier hser
    (db.write [.put .raftMeta lastAppliedKey bytes])
  refine ⟨response, (Journaled.bind_ok (a := bytes) ?_).trans ?_⟩
  · simp [Journaled.read_apply, hbytes, Except.mapError]
  · have hwrite : ((Journaled.write [.put .raftMeta lastAppliedKey bytes] : RaftM Unit)
        db).result = .ok () := rfl
    show Outcome.mk ((Journaled.write _ >>= fun _ => applyPayload bin applier entry) db).result
      ((Journaled.write _ >>= fun _ => applyPayload bin applier entry) db).writes = _
    rw [Journaled.bind_ok hwrite]
    show Outcome.mk (applyPayload bin applier entry (db.write _)).result
      (_ :: (applyPayload bin applier entry (db.write _)).writes) = _
    rw [hpayload]

end OneEntry

/-! ## A list of entries -/

section Entries

variable {bin applier} {db : Db} {last : Option LogId} {r : Replica}

/-- The log id that is reported after some entries were applied. -/
def lastOf (last : Option LogId) (entries : List Entry) : Option LogId :=
  entries.foldl (fun _ e => some e.logId) last

theorem lastOf_concat (last : Option LogId) (entries : List Entry) (e : Entry) :
    lastOf last (entries ++ [e]) = some e.logId := by
  simp [lastOf]

theorem exec_applyEntry (h : View bin db last r) (hbin : bin.RoundTrips)
    (happlier : ∀ a, applier = some a → a.Atomic) {entry : Entry} (hser : entry.Serializable bin) :
    View bin (Journaled.exec (applyEntry bin applier entry) db) (some entry.logId)
      (effect applier r entry) := by
  obtain ⟨bytes, hbytes⟩ := hser.1
  obtain ⟨response, happly⟩ := applyEntry_eq applier hser hbytes db
  rw [Journaled.exec, happly]
  exact (h.put_marker (hbin.logId _ _ hbytes)).effect hbin happlier hser

theorem writes_cons {entry : Entry} (hser : entry.Serializable bin) (entries : List Entry)
    (db : Db) :
    (applyToStateMachine bin applier (entry :: entries) db).writes =
      (applyEntry bin applier entry db).writes ++
        (applyToStateMachine bin applier entries
          (Journaled.exec (applyEntry bin applier entry) db)).writes := by
  obtain ⟨bytes, hbytes⟩ := hser.1
  obtain ⟨response, happly⟩ := applyEntry_eq applier hser hbytes db
  have hok : (applyEntry bin applier entry db).result = .ok response := by rw [happly]
  rw [applyToStateMachine, Journaled.bind_ok hok]
  simp only [Journaled.writes_bind_pure]

theorem exec_cons {entry : Entry} (hser : entry.Serializable bin) (entries : List Entry) (db : Db) :
    Journaled.exec (applyToStateMachine bin applier (entry :: entries)) db =
      Journaled.exec (applyToStateMachine bin applier entries)
        (Journaled.exec (applyEntry bin applier entry) db) := by
  unfold Journaled.exec
  rw [writes_cons hser, Writable.writeAll_append]
  rfl

/-- **A run without a crash** applies every entry once. -/
theorem View.applyAll (hbin : bin.RoundTrips) (happlier : ∀ a, applier = some a → a.Atomic)
    (h : View bin db last r) (entries : List Entry) (hser : ∀ e ∈ entries, e.Serializable bin) :
    View bin (Journaled.exec (applyToStateMachine bin applier entries) db) (lastOf last entries)
      (effects applier r entries) := by
  induction entries generalizing db last r with
  | nil => exact h
  | cons e entries ih =>
    have he := hser e List.mem_cons_self
    rw [exec_cons he]
    exact ih (exec_applyEntry h hbin happlier he) fun e' he' => hser e' (List.mem_cons_of_mem _ he')

theorem writes_append {done : List Entry} (hser : ∀ e ∈ done, e.Serializable bin)
    (rest : List Entry) (db : Db) :
    (applyToStateMachine bin applier (done ++ rest) db).writes =
      (applyToStateMachine bin applier done db).writes ++
        (applyToStateMachine bin applier rest
          (Journaled.exec (applyToStateMachine bin applier done) db)).writes := by
  induction done generalizing db with
  | nil => rfl
  | cons e done ih =>
    have he := hser e List.mem_cons_self
    rw [List.cons_append, writes_cons he, writes_cons he, exec_cons he,
      ih (fun e' he' => hser e' (List.mem_cons_of_mem _ he')), List.append_assoc]

/-! ## Where a crash falls -/

/-- The store after a crash that separates a marker from its effect. -/
theorem crash_of_cutsOff {entries done rest : List Entry} {e : Entry} {n : Nat}
    (hser : ∀ e ∈ entries, e.Serializable bin) (hentries : entries = done ++ e :: rest)
    (hcut : CutsOff bin applier db n done e) :
    ∃ bytes, bin.logId.serialize e.logId = .ok bytes ∧
      Journaled.crash (applyToStateMachine bin applier entries) n db =
        (Journaled.exec (applyToStateMachine bin applier done) db).write
          [.put .raftMeta lastAppliedKey bytes] := by
  subst hentries
  have hdone : ∀ e ∈ done, e.Serializable bin := fun e' he' => hser e' (by simp [he'])
  have he : e.Serializable bin := hser e (by simp)
  obtain ⟨bytes, hbytes⟩ := he.1
  obtain ⟨response, happly⟩ := applyEntry_eq applier he hbytes
    (Journaled.exec (applyToStateMachine bin applier done) db)
  refine ⟨bytes, hbytes, ?_⟩
  rw [Journaled.crash, writes_append hdone, writes_cons he, hcut.1, List.take_length_add_append,
    happly, Writable.writeAll_append]
  rfl

/-- **Every crash** falls between two entries or separates a marker from its effect. -/
theorem exists_crash_point (happlier : ∀ a, applier = some a → a.Atomic) {entries : List Entry}
    (hser : ∀ e ∈ entries, e.Serializable bin) (n : Nat) (db : Db) :
    (∃ done rest, entries = done ++ rest ∧
      Journaled.crash (applyToStateMachine bin applier entries) n db =
        Journaled.exec (applyToStateMachine bin applier done) db) ∨
      ∃ done e rest, entries = done ++ e :: rest ∧ CutsOff bin applier db n done e := by
  induction entries generalizing n db with
  | nil => exact Or.inl ⟨[], [], rfl, by simp [Journaled.crash, applyToStateMachine,
      Journaled.pure_apply, Journaled.exec]⟩
  | cons e entries ih =>
    have he := hser e List.mem_cons_self
    have hrest : ∀ e' ∈ entries, e'.Serializable bin :=
      fun e' he' => hser e' (List.mem_cons_of_mem _ he')
    obtain ⟨bytes, hbytes⟩ := he.1
    obtain ⟨response, happly⟩ := applyEntry_eq applier he hbytes db
    have hlength : (applyEntry bin applier e db).writes.length = 1 ∨
        (applyEntry bin applier e db).writes.length = 2 := by
      have hle := length_effectWrites_le bin happlier e
        (db.write [.put .raftMeta lastAppliedKey bytes])
      rw [happly]
      simp only [List.length_cons]
      omega
    by_cases hn : (applyEntry bin applier e db).writes.length ≤ n
    · -- the whole entry was applied
      have hcrash : Journaled.crash (applyToStateMachine bin applier (e :: entries)) n db =
          Journaled.crash (applyToStateMachine bin applier entries)
            (n - (applyEntry bin applier e db).writes.length)
            (Journaled.exec (applyEntry bin applier e) db) := by
        rw [Journaled.crash, writes_cons he, List.take_append, List.take_of_length_le hn,
          Writable.writeAll_append]
        rfl
      rcases ih hrest (n - (applyEntry bin applier e db).writes.length)
          (Journaled.exec (applyEntry bin applier e) db) with
        ⟨done, rest, rfl, hdone⟩ | ⟨done, e', rest, rfl, hcut⟩
      · left
        exact ⟨e :: done, rest, rfl, by rw [hcrash, hdone, exec_cons he]⟩
      · right
        refine ⟨e :: done, e', rest, rfl, ?_, ?_⟩
        · have hfirst := hcut.1
          rw [writes_cons he, List.length_append]
          omega
        · rw [exec_cons he]
          exact hcut.2
    · by_cases hzero : n = 0
      · left
        refine ⟨[], e :: entries, rfl, ?_⟩
        rw [hzero, Journaled.crash_zero]
        rfl
      · right
        refine ⟨[], e, entries, rfl, ?_, ?_⟩
        · show n = 0 + 1
          omega
        · show (applyEntry bin applier e db).writes.length = 2
          omega

/-- Raft resumes behind the entries whose markers were written. -/
theorem entriesAfter_append {done rest : List Entry} (h : Committed bin last (done ++ rest)) :
    entriesAfter (lastOf last done) (done ++ rest) = rest := by
  rcases List.eq_nil_or_concat done with rfl | ⟨init, d, rfl⟩
  · cases last with
    | none => rfl
    | some l =>
      show List.filter _ rest = rest
      rw [List.filter_eq_self]
      intro e he
      simpa using h.behind l rfl e he
  · rw [List.concat_eq_append] at h ⊢
    rw [lastOf_concat]
    show List.filter _ _ = rest
    obtain ⟨hdone, -, hrest⟩ := List.pairwise_append.mp h.increasing
    have hinit := (List.pairwise_append.mp hdone).2.2
    have hnone : (init ++ [d]).filter (fun e => decide (d.logId < e.logId)) = [] := by
      rw [List.filter_eq_nil_iff]
      intro e he
      rcases List.mem_append.mp he with he | he
      · simpa using (hinit e he d List.mem_cons_self).le
      · simp [List.mem_singleton.mp he]
    have hall : rest.filter (fun e => decide (d.logId < e.logId)) = rest := by
      rw [List.filter_eq_self]
      intro e he
      simpa using hrest d (by simp) e he
    rw [List.filter_append, hnone, hall]
    rfl

theorem View.unique {last' : Option LogId} {r' : Replica} (h : View bin db last r)
    (h' : View bin db last' r') : r = r' := by
  obtain ⟨graphs, membership⟩ := r
  obtain ⟨graphs', membership'⟩ := r'
  have hreported := h.reported.symm.trans h'.reported
  have hgraphs := h.graphs.symm.trans h'.graphs
  simp_all

/-- The resumption skips the entry that a crash has cut off. -/
theorem resume_of_cutsOff (hbin : bin.RoundTrips) (happlier : ∀ a, applier = some a → a.Atomic)
    (hview : View bin db last r) {entries : List Entry} (hentries : Committed bin last entries)
    {n : Nat} {done rest : List Entry} {e : Entry} (hsplit : entries = done ++ e :: rest)
    (hcut : CutsOff bin applier db n done e) :
    ∃ mem, lastAppliedState bin (Journaled.crash (applyToStateMachine bin applier entries) n db) =
        .ok (some e.logId, mem) ∧
      View bin (Journaled.exec
          (applyToStateMachine bin applier (entriesAfter (some e.logId) entries))
          (Journaled.crash (applyToStateMachine bin applier entries) n db))
        (lastOf (some e.logId) rest) (effects applier r (done ++ rest)) := by
  obtain ⟨bytes, hbytes, hcrash⟩ := crash_of_cutsOff hentries.serializable hsplit hcut
  subst hsplit
  have hdone := hview.applyAll hbin happlier done
    fun e' he' => hentries.serializable e' (by simp [he'])
  have hmarker := hdone.put_marker (hbin.logId _ _ hbytes)
  rw [← hcrash] at hmarker
  have hafter : entriesAfter (lastOf last (done ++ [e])) (done ++ [e] ++ rest) = rest :=
    entriesAfter_append (by simpa using hentries)
  rw [lastOf_concat, List.append_assoc, List.singleton_append] at hafter
  have hrest := hmarker.applyAll hbin happlier rest
    fun e' he' => hentries.serializable e' (by simp [he'])
  refine ⟨_, hmarker.reported, ?_⟩
  rw [hafter]
  simpa [effects, List.foldl_append] using hrest

end Entries

/-- **When committed entries are applied exactly once.** For every list of committed entries and
every crash point among the durable writes that apply them: after the restart and the resumption the
graphs and the stored membership are those of applying every entry once and in order exactly when the
crash does not separate the marker of an entry from the write that applies it, or leaving out that
entry leads to the same graphs and membership. -/
theorem appliedOnce_iff {bin : RaftBincode} {applier : Option StateMachineApplier}
    (hbin : bin.RoundTrips) (happlier : ∀ a, applier = some a → a.Atomic) {db : Db}
    {last : Option LogId} {r : Replica} (hview : View bin db last r) {entries : List Entry}
    (hentries : Committed bin last entries) (n : Nat) :
    AppliedOnce bin applier db r entries n ↔
      ∀ done e rest, entries = done ++ e :: rest → CutsOff bin applier db n done e →
        effects applier r (done ++ rest) = effects applier r (done ++ e :: rest) := by
  constructor
  · rintro ⟨last', mem, hreported, last'', hfinal⟩ done e rest hsplit hcut
    obtain ⟨mem', hreported', hresumed⟩ :=
      resume_of_cutsOff hbin happlier hview hentries hsplit hcut
    rw [hreported] at hreported'
    cases hreported'
    rw [hresumed.unique hfinal, hsplit]
  · intro hskip
    rcases exists_crash_point happlier hentries.serializable n db with
      ⟨done, rest, rfl, hcrash⟩ | ⟨done, e, rest, hsplit, hcut⟩
    · have hdone := hview.applyAll hbin happlier done
        fun e he => hentries.serializable e (by simp [he])
      have hrest := hdone.applyAll hbin happlier rest
        fun e he => hentries.serializable e (by simp [he])
      refine ⟨_, _, hcrash ▸ hdone.reported, lastOf (lastOf last done) rest, ?_⟩
      rw [hcrash, entriesAfter_append hentries]
      simpa [effects, List.foldl_append] using hrest
    · obtain ⟨mem, hreported, hresumed⟩ :=
        resume_of_cutsOff hbin happlier hview hentries hsplit hcut
      rw [hskip done e rest hsplit hcut, ← hsplit] at hresumed
      exact ⟨_, mem, hreported, _, hresumed⟩

/-! ## One insertion -/

/-- What applying `INSERT (:Person)` does when it draws the identifier of `person`. -/
def insertPerson : StateMachineApplier where
  apply _ _ :=
    (⟨true, none, 1, 1, 0, 0, 0, 0⟩,
      [StorageEngine.putNodeBatch person [] (bincodeBareNode person)])

theorem insertPerson_atomic : insertPerson.Atomic where
  atomic _ _ := le_rfl
  writes _ _ batch hbatch := by
    rw [List.mem_singleton.mp hbatch]
    decide
  reads _ _ := rfl

def insertion : Entry := ⟨firstTerm 1, .normal (.writeQuery "INSERT (:Person)" "default")⟩

theorem view_empty (bin : RaftBincode) : View bin Db.empty none ⟨graphsOf Db.empty, .default⟩ where
  reported := by simp [lastAppliedState, metaGet, Db.empty, pure, Except.pure, bind, Except.bind]
  graphs := rfl

theorem insertion_committed : Committed firstTermBincode none [insertion] where
  serializable e he := by
    rw [List.mem_singleton.mp he]
    refine ⟨⟨bincodeLogId (firstTerm 1), by decide⟩, ?_⟩
    intro mem hmem
    cases hmem
  increasing := List.pairwise_singleton _ _
  behind l hl := by cases hl

theorem insertPerson_some_atomic : ∀ a, some insertPerson = some a → a.Atomic := by
  rintro a ⟨⟩
  exact insertPerson_atomic

/-- A crash after the insertion. -/
theorem appliedOnce_after_insertion :
    AppliedOnce firstTermBincode (some insertPerson) Db.empty ⟨graphsOf Db.empty, .default⟩
      [insertion] 2 := by
  apply (appliedOnce_iff firstTermBincode_roundTrips insertPerson_some_atomic (view_empty _)
    insertion_committed 2).mpr
  intro done e rest hsplit hcut
  obtain ⟨rfl, -, -⟩ : done = [] ∧ e = insertion ∧ rest = [] := by
    cases done with
    | nil => simpa [eq_comm] using hsplit
    | cons d done => simp at hsplit
  exact absurd hcut.1 (by decide)

/-- **A crash between the marker and the insertion loses the insertion.** -/
theorem not_appliedOnce_before_insertion :
    firstTermBincode.RoundTrips ∧ insertPerson.Atomic ∧
      View firstTermBincode Db.empty none ⟨graphsOf Db.empty, .default⟩ ∧
      Committed firstTermBincode none [insertion] ∧
      ¬ AppliedOnce firstTermBincode (some insertPerson) Db.empty ⟨graphsOf Db.empty, .default⟩
        [insertion] 1 := by
  refine ⟨firstTermBincode_roundTrips, insertPerson_atomic, view_empty _, insertion_committed, ?_⟩
  rintro ⟨last, mem, hreported, last', hfinal⟩
  have hcut : CutsOff firstTermBincode (some insertPerson) Db.empty 1 [] insertion :=
    ⟨by decide, by decide⟩
  obtain ⟨mem', hreported', hresumed⟩ := resume_of_cutsOff firstTermBincode_roundTrips
    insertPerson_some_atomic (view_empty _) insertion_committed
    (show [insertion] = [] ++ insertion :: [] from rfl) hcut
  rw [hreported] at hreported'
  cases hreported'
  have hgraphs := congrArg (fun r : Replica => (r.graphs .nodes).isEmpty) (hresumed.unique hfinal)
  revert hgraphs
  decide

end Synaptica.Cluster
