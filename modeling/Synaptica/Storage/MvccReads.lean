import Synaptica.Storage.Mvcc

/-!
# What a point read returns

`get_at` is meant to answer with the newest version of a key at or below a snapshot timestamp. Its
loop walks byte order, though, and stops at the first entry that is not a version of the key, so
the answer depends on where the versions of *other* keys sort.

* `TableVersions` reads a column family as a map from keys and timestamps to versions.
* `Unshadowed` says when nothing gets in the way: the version to be found is a deletion or missing
  anyway, or no version of another key sorts between the start of the walk and that version.
* `readAt_newest_iff` — the read is right exactly when it is unshadowed.

The second half states this for every content the store's own operations can produce, against the
log of the writes they made.
-/

namespace Synaptica.Storage

open Versioned BigEndian

/-! ## Versions held in a column family -/

/-- A stored value as a version: the tombstone is a deletion. -/
def versionOf (value : Bytes) : Option Bytes := if isTombstone value then none else some value

/-- The versions of each key; `some none` is a deletion. -/
def TableVersions (m : Table) (k : Bytes) (t : UInt64) : Option (Option Bytes) :=
  m[encodeVersionedKey k t]?.map versionOf

/-- No version of another key sorts between the start of the walk for `k` and the live version of
`k` that is visible at `s`. -/
def Unshadowed (vs : Bytes → UInt64 → Option (Option Bytes)) (k : Bytes) (s : UInt64) : Prop :=
  ∀ t v, IsNewest (vs k) s t → vs k t = some (some v) →
    ∀ k' t', k' ≠ k → (vs k' t').isSome →
      ¬ (encodeVersionedKey k u64Max ≤ encodeVersionedKey k' t' ∧
          encodeVersionedKey k' t' < encodeVersionedKey k t)

/-- Every entry is long enough to carry a timestamp. -/
def AllVersioned (m : Table) : Prop := ∀ b : Bytes, m[b]?.isSome → 8 ≤ b.length

/-! ## The loop -/

namespace MvccStore

/-- The loop as a search: among the leading entries of the key, the first that is old enough. -/
theorem getAtLoop_eq (k : Bytes) (s : UInt64) (l : List (Bytes × Bytes)) :
    getAtLoop k s l =
      ((l.takeWhile fun e => decide (extractKeyPrefix e.1 = k)).find?
        fun e => decide ((decodeVersionedTimestamp e.1).getD 0 ≤ s)).bind
          fun e => versionOf e.2 := by
  induction l with
  | nil => rfl
  | cons e l ih =>
    obtain ⟨b, v⟩ := e
    by_cases hk : extractKeyPrefix b = k
    · by_cases hs : (decodeVersionedTimestamp b).getD 0 ≤ s
      · simp [getAtLoop, hk, hs, versionOf]
      · simp [getAtLoop, hk, hs, ih]
    · simp [getAtLoop, hk]

/-- The entry the walk for `k` at `s` stops at with an answer. -/
def hit (m : Table) (k : Bytes) (s : UInt64) : Option (Bytes × Bytes) :=
  ((OrderedMap.seek m (encodeVersionedKey k u64Max)).takeWhile
    fun e => decide (extractKeyPrefix e.1 = k)).find?
      fun e => decide ((decodeVersionedTimestamp e.1).getD 0 ≤ s)

theorem readAt_eq_hit (m : Table) (k : Bytes) (s : UInt64) :
    readAt m k s = (hit m k s).bind fun e => versionOf e.2 :=
  getAtLoop_eq k s _

/-- The walk stops at a version of `k` that `s` may see, having passed only newer versions of
`k`. -/
theorem hit_eq_some_iff {m : Table} (hm : AllVersioned m) {k : Bytes} {s : UInt64} {b v : Bytes} :
    hit m k s = some (b, v) ↔
      ∃ t, b = encodeVersionedKey k t ∧ m[b]? = some v ∧ t ≤ s ∧
        ∀ k' t', (m[encodeVersionedKey k' t']?).isSome →
          encodeVersionedKey k u64Max ≤ encodeVersionedKey k' t' →
          encodeVersionedKey k' t' < b → k' = k ∧ s < t' := by
  rw [hit, List.find?_takeWhile_eq_some_iff (OrderedMap.pairwise_seek m _)]
  simp only [decide_eq_true_eq, decide_eq_false_iff_not, not_le, OrderedMap.mem_seek]
  constructor
  · rintro ⟨⟨hmb, hstart⟩, hk, hts, hbefore⟩
    have hb := encode_extract_decode (hm b (by simp [hmb]))
    rw [hk] at hb
    refine ⟨_, hb.symm, hmb, hts, fun k' t' hp hlo hhi => ?_⟩
    obtain ⟨v', hv'⟩ := Option.isSome_iff_exists.mp hp
    simpa using hbefore (encodeVersionedKey k' t', v') ⟨hv', hlo⟩ hhi
  · rintro ⟨t, rfl, hmb, hts, hbefore⟩
    refine ⟨⟨hmb, encode_u64Max_le k t⟩, by simp, by simpa using hts, ?_⟩
    rintro ⟨b', v'⟩ ⟨hb', hlo⟩ hhi
    have hdec := encode_extract_decode (hm b' (by simp [hb']))
    simp only at hlo hhi ⊢
    rw [← hdec] at hb' hlo hhi
    exact hbefore _ _ (by simp [hb']) hlo hhi

/-- What the walk finds is the newest visible version. -/
theorem isNewest_of_hit {m : Table} (hm : AllVersioned m) {k : Bytes} {s : UInt64} {b v : Bytes}
    (h : hit m k s = some (b, v)) :
    ∃ t, b = encodeVersionedKey k t ∧ IsNewest (TableVersions m k) s t ∧
      TableVersions m k t = some (versionOf v) := by
  obtain ⟨t, rfl, hmb, hts, hbefore⟩ := (hit_eq_some_iff hm).mp h
  refine ⟨t, rfl, ⟨by simp [TableVersions, hmb], hts, fun t' ht' hle => ?_⟩,
    by simp [TableVersions, hmb]⟩
  by_contra hlt
  have hp : (m[encodeVersionedKey k t']?).isSome := by simpa [TableVersions] using ht'
  have := (hbefore k t' hp (encode_u64Max_le k t')
    ((encodeVersionedKey_lt_iff k t' t).mpr (not_le.mp hlt))).2
  exact absurd hle (not_le.mpr this)

/-- An unshadowed live version is what the walk finds. -/
theorem hit_of_isNewest {m : Table} (hm : AllVersioned m) {k : Bytes} {s t : UInt64} {v : Bytes}
    (hu : Unshadowed (TableVersions m) k s) (ht : IsNewest (TableVersions m k) s t)
    (hv : TableVersions m k t = some (some v)) : hit m k s = some (encodeVersionedKey k t, v) := by
  have hmb : m[encodeVersionedKey k t]? = some v := by
    obtain ⟨w, hw, hwv⟩ := Option.map_eq_some_iff.mp hv
    rw [hw]
    simp only [versionOf, Option.ite_none_left_eq_some, Option.some.injEq] at hwv
    rw [hwv.2]
  refine (hit_eq_some_iff hm).mpr ⟨t, rfl, hmb, ht.visible, fun k' t' hp hlo hhi => ?_⟩
  have hp' : (TableVersions m k' t').isSome := by simpa [TableVersions] using hp
  have hk : k' = k := by
    by_contra hne
    exact hu t v ht hv k' t' hne hp' ⟨hlo, hhi⟩
  subst hk
  refine ⟨rfl, ?_⟩
  by_contra hle
  have := ht.newest t' hp' (not_lt.mp hle)
  exact absurd this (not_le.mpr ((encodeVersionedKey_lt_iff k' t' t).mp hhi))

/-- **A point read is right exactly when it is unshadowed.** -/
theorem readAt_newest_iff {m : Table} (hm : AllVersioned m) (k : Bytes) (s : UInt64) :
    (∃ r, ReadsAt (TableVersions m k) s r ∧ readAt m k s = r.join) ↔
      Unshadowed (TableVersions m) k s := by
  constructor
  · rintro ⟨r, hr, hread⟩ t v ht hv k' t' hne hp ⟨hlo, hhi⟩
    -- the reader must be shown `v`, so the walk got past the version of `k'`
    obtain rfl : r = some (some v) := hr.unique ⟨t, ht, hv⟩
    rw [readAt_eq_hit, Option.join_some, Option.bind_eq_some_iff] at hread
    obtain ⟨⟨b, w⟩, hhit, -⟩ := hread
    obtain ⟨t₀, rfl, hnewest, -⟩ := isNewest_of_hit hm hhit
    obtain rfl := hnewest.unique ht
    obtain ⟨t₁, -, -, -, hbefore⟩ := (hit_eq_some_iff hm).mp hhit
    have hp' : (m[encodeVersionedKey k' t']?).isSome := by simpa [TableVersions] using hp
    exact hne (hbefore k' t' hp' hlo hhi).1
  · intro hu
    obtain ⟨r, hr⟩ := exists_readsAt (Set.toFinite {t | (TableVersions m k t).isSome}) s
    refine ⟨r, hr, ?_⟩
    rw [readAt_eq_hit]
    cases hhit : hit m k s with
    | some e =>
      obtain ⟨b, w⟩ := e
      obtain ⟨t, -, ht, hv⟩ := isNewest_of_hit hm hhit
      rw [hr.unique (show ReadsAt (TableVersions m k) s (some (versionOf w)) from ⟨t, ht, hv⟩)]
      rfl
    | none =>
      match r, hr with
      | none, _ => rfl
      | some none, _ => rfl
      | some (some v), ⟨t, ht, hv⟩ => rw [hit_of_isNewest hm hu ht hv] at hhit; cases hhit

end MvccStore

/-! ## Contents the store can produce -/

/-- A call of the store that writes. -/
inductive MvccOp where
  | putAt (cfName : String) (key value : Bytes) (timestamp : UInt64)
  | deleteAt (cfName : String) (key : Bytes) (timestamp : UInt64)
  | batchWriteAt (writes : List (String × Bytes × Option Bytes)) (timestamp : UInt64)
  deriving DecidableEq, Repr

/-- A version as the caller asked for it; `value = none` is a deletion. -/
structure VersionWrite where
  cf : ColumnFamily
  key : Bytes
  timestamp : UInt64
  value : Option Bytes
  deriving DecidableEq, Repr

namespace MvccOp

def exec (db : Db) : MvccOp → MvccResult Db
  | putAt cfName key value timestamp => MvccStore.putAt db cfName key value timestamp
  | deleteAt cfName key timestamp => MvccStore.deleteAt db cfName key timestamp
  | batchWriteAt writes timestamp => MvccStore.batchWriteAt db writes timestamp

/-- Run calls in order; a call that fails has written nothing. -/
def run (db : Db) (ops : List MvccOp) : Db :=
  ops.foldl (fun db op => (op.exec db).toOption.getD db) db

/-- The writes a call asks for. -/
def requested : MvccOp → List (String × Bytes × Option Bytes)
  | putAt cfName key value _ => [(cfName, key, some value)]
  | deleteAt cfName key _ => [(cfName, key, none)]
  | batchWriteAt writes _ => writes

def timestamp : MvccOp → UInt64
  | putAt _ _ _ timestamp => timestamp
  | deleteAt _ _ timestamp => timestamp
  | batchWriteAt _ timestamp => timestamp

/-- No write of the call stores an empty value. -/
def NonEmptyValues (op : MvccOp) : Prop := ∀ w ∈ op.requested, w.2.2 ≠ some []

instance (op : MvccOp) : Decidable op.NonEmptyValues :=
  inferInstanceAs (Decidable (∀ w ∈ op.requested, w.2.2 ≠ some []))

/-- Attach column families to requested writes; one unknown name spoils them all. -/
def resolve (timestamp : UInt64) : List (String × Bytes × Option Bytes) → Option (List VersionWrite)
  | [] => some []
  | (cfName, key, value) :: rest => do
    let c ← cfHandle cfName
    let ws ← resolve timestamp rest
    return ⟨c, key, timestamp, value⟩ :: ws

/-- The versions a call leaves behind. -/
def log (op : MvccOp) : List VersionWrite := (resolve op.timestamp op.requested).getD []

/-- The versions after a run of calls: for each key and timestamp, the last write logged. -/
def versions (ops : List MvccOp) (c : ColumnFamily) (k : Bytes) (t : UInt64) :
    Option (Option Bytes) :=
  ((ops.flatMap log).reverse.find?
    fun w => decide (w.cf = c ∧ w.key = k ∧ w.timestamp = t)).map VersionWrite.value

end MvccOp

/-- The store operation that leaves a version. -/
def VersionWrite.toOp (w : VersionWrite) : WriteOp :=
  .put w.cf (encodeVersionedKey w.key w.timestamp) (w.value.getD tombstone)

namespace MvccOp

open MvccStore

/-- The batch a call builds is the one its log prescribes. -/
theorem versionedBatch_toOption (timestamp : UInt64) (writes : List (String × Bytes × Option Bytes)) :
    (versionedBatch writes timestamp).toOption =
      (resolve timestamp writes).map (List.map VersionWrite.toOp) := by
  induction writes with
  | nil => rfl
  | cons w writes ih =>
    obtain ⟨cfName, key, value⟩ := w
    rw [versionedBatch] at ih
    rw [versionedBatch, List.mapM_cons]
    cases hc : cfHandle cfName with
    | none => simp [mvccCf, hc, resolve, Except.toOption, bind, Except.bind]
    | some c =>
      cases hb : (writes.mapM fun w => do
          let c ← mvccCf w.1
          return WriteOp.put c (encodeVersionedKey w.2.1 timestamp) (w.2.2.getD tombstone)) with
      | error e =>
        rw [hb] at ih
        have hnone : resolve timestamp writes = none := by
          simpa [Except.toOption, eq_comm] using ih
        simp [mvccCf, hc, resolve, hnone, Except.toOption, bind, Except.bind, pure, Except.pure]
      | ok batch =>
        rw [hb] at ih
        obtain ⟨ws, hws, hbatch⟩ := Option.map_eq_some_iff.mp ih.symm
        simp [mvccCf, hc, resolve, hws, hbatch, VersionWrite.toOp, Except.toOption, bind,
          Except.bind, pure, Except.pure]

/-- **One call** writes its log. -/
theorem exec_toOption_getD (db : Db) (op : MvccOp) :
    (op.exec db).toOption.getD db = db.write (op.log.map VersionWrite.toOp) := by
  cases op with
  | putAt cfName key value t =>
    cases hc : cfHandle cfName <;>
      simp [exec, MvccStore.putAt, mvccCf, log, requested, MvccOp.timestamp, resolve, hc,
        Except.toOption, VersionWrite.toOp, bind, Except.bind, pure, Except.pure]
  | deleteAt cfName key t =>
    cases hc : cfHandle cfName <;>
      simp [exec, MvccStore.deleteAt, MvccStore.putAt, mvccCf, log, requested, MvccOp.timestamp,
        resolve, hc, Except.toOption, VersionWrite.toOp, bind, Except.bind, pure, Except.pure]
  | batchWriteAt writes t =>
    have h := versionedBatch_toOption t writes
    cases hb : versionedBatch writes t with
    | error e =>
      rw [hb] at h
      have hnone : resolve t writes = none := by simpa [Except.toOption, eq_comm] using h
      simp [exec, MvccStore.batchWriteAt, hb, log, requested, MvccOp.timestamp, hnone,
        Except.toOption, bind, Except.bind]
    | ok batch =>
      rw [hb] at h
      obtain ⟨ws, hws, hbatch⟩ := Option.map_eq_some_iff.mp h.symm
      simp [exec, MvccStore.batchWriteAt, hb, log, requested, MvccOp.timestamp, hws, hbatch,
        Except.toOption, bind, Except.bind, pure, Except.pure]

/-- **A run of calls** writes the concatenated logs. -/
theorem run_eq_write (db : Db) (ops : List MvccOp) :
    run db ops = db.write ((ops.flatMap log).map VersionWrite.toOp) := by
  induction ops generalizing db with
  | nil => rfl
  | cons op ops ih =>
    rw [List.flatMap_cons, List.map_append, Db.write_append, ← exec_toOption_getD]
    exact ih _

/-- Logged values are the requested ones. -/
theorem resolve_value {t : UInt64} {writes : List (String × Bytes × Option Bytes)}
    {ws : List VersionWrite} (h : resolve t writes = some ws) :
    ws.map VersionWrite.value = writes.map (fun w => w.2.2) := by
  induction writes generalizing ws with
  | nil =>
    cases h
    rfl
  | cons w writes ih =>
    obtain ⟨cfName, key, value⟩ := w
    simp only [resolve, Option.bind_eq_bind, Option.bind_eq_some_iff, Option.pure_def,
      Option.some.injEq] at h
    obtain ⟨c, -, ws', hws', rfl⟩ := h
    simp [ih hws']

theorem log_value_ne {op : MvccOp} (h : op.NonEmptyValues) :
    ∀ w ∈ op.log, w.value ≠ some [] := by
  intro w hw
  cases hr : resolve op.timestamp op.requested with
  | none => simp [log, hr] at hw
  | some ws =>
    rw [log, hr, Option.getD_some] at hw
    have hmem : w.value ∈ op.requested.map (fun w => w.2.2) := by
      rw [← resolve_value hr]
      exact List.mem_map_of_mem hw
    obtain ⟨w', hw', heq⟩ := List.mem_map.mp hmem
    exact heq ▸ h w' hw'

/-- Every entry a run leaves carries a timestamp. -/
theorem allVersioned_run (ops : List MvccOp) (c : ColumnFamily) :
    AllVersioned (run Db.empty ops c) := by
  intro b hb
  rw [run_eq_write, Db.getElem?_write] at hb
  split at hb
  · next op hop =>
    have hmem := List.mem_of_find?_eq_some hop
    obtain ⟨w, -, rfl⟩ := List.mem_map.mp (List.mem_reverse.mp hmem)
    have hkey := List.find?_some hop
    simp only [decide_eq_true_eq] at hkey
    rw [← hkey.2, VersionWrite.toOp, WriteOp.key, length_encodeVersionedKey]
    omega
  · simp [Db.empty] at hb

/-- **The column families hold the logged versions.** -/
theorem tableVersions_run {ops : List MvccOp} (hv : ∀ op ∈ ops, op.NonEmptyValues)
    (c : ColumnFamily) : TableVersions (run Db.empty ops c) = versions ops c := by
  funext k t
  have hpred : (fun w : VersionWrite => decide ((w.toOp).cf = c ∧
      (w.toOp).key = encodeVersionedKey k t)) =
        fun w => decide (w.cf = c ∧ w.key = k ∧ w.timestamp = t) := by
    funext w
    simp [VersionWrite.toOp, WriteOp.cf, WriteOp.key, encodeVersionedKey_inj]
  rw [TableVersions, versions, run_eq_write, Db.getElem?_write, ← List.map_reverse, List.find?_map]
  simp only [Function.comp_def, hpred]
  cases hf : (ops.flatMap log).reverse.find?
      (fun w => decide (w.cf = c ∧ w.key = k ∧ w.timestamp = t)) with
  | none => simp [Db.empty]
  | some w =>
    have hmem := List.mem_reverse.mp (List.mem_of_find?_eq_some hf)
    obtain ⟨op, hop, hw⟩ := List.mem_flatMap.mp hmem
    have hne := log_value_ne (hv op hop) w hw
    cases hval : w.value with
    | none => simp [VersionWrite.toOp, WriteOp.result, versionOf, isTombstone, tombstone, hval]
    | some v =>
      have hv : v ≠ [] := by
        rintro rfl
        exact hne hval
      simp [VersionWrite.toOp, WriteOp.result, versionOf, isTombstone, hval, hv]

end MvccOp

/-! ## The answer of `get_at` -/

/-- `get_at` answers with the newest version at or below the snapshot — a deletion and a missing
version both read as nothing — **exactly when the read is unshadowed**. -/
theorem getAt_newest_iff_unshadowed (ops : List MvccOp) (hv : ∀ op ∈ ops, op.NonEmptyValues)
    (cfName : String) (c : ColumnFamily) (hc : cfHandle cfName = some c) (k : Bytes) (s : UInt64) :
    (∃ r, ReadsAt (MvccOp.versions ops c k) s r ∧
        MvccStore.getAt (MvccOp.run Db.empty ops) cfName k s = .ok r.join) ↔
      Unshadowed (MvccOp.versions ops c) k s := by
  have h := MvccStore.readAt_newest_iff (MvccOp.allVersioned_run ops c) k s
  rw [MvccOp.tableVersions_run hv c] at h
  rw [← h]
  simp [MvccStore.getAt, mvccCf, hc, bind, Except.bind, pure, Except.pure]

/-- Two keys, one extending the other: `a` and `ab`, each written once at time 1. -/
def extendedKey : List MvccOp :=
  [.putAt "default" [0x61] [0x76] 1, .putAt "default" [0x61, 0x62] [0x77] 1]

/-- Reading `a` at time 1 meets the version of `ab` first and gives up: the version of `a` that is
there to be read is not found. -/
theorem getAt_extendedKey :
    (∀ op ∈ extendedKey, op.NonEmptyValues) ∧
      MvccOp.versions extendedKey .default [0x61] 1 = some (some [0x76]) ∧
      MvccStore.getAt (MvccOp.run Db.empty extendedKey) "default" [0x61] 1 = .ok none ∧
      ¬ ∃ r, ReadsAt (MvccOp.versions extendedKey .default [0x61]) 1 r ∧
        MvccStore.getAt (MvccOp.run Db.empty extendedKey) "default" [0x61] 1 = .ok r.join := by
  have hget : MvccStore.getAt (MvccOp.run Db.empty extendedKey) "default" [0x61] 1 = .ok none := by
    decide
  have hver : MvccOp.versions extendedKey .default [0x61] 1 = some (some [0x76]) := by
    decide
  refine ⟨by decide, hver, hget, ?_⟩
  rintro ⟨r, hr, hread⟩
  have hr' : ReadsAt (MvccOp.versions extendedKey .default [0x61]) 1 (some (some [0x76])) :=
    ⟨1, ⟨by simp [hver], le_refl _, fun _ _ h => h⟩, hver⟩
  obtain rfl := hr.unique hr'
  rw [hget] at hread
  cases hread

/-- Two versions of one key. -/
def twoVersions : List MvccOp :=
  [.putAt "default" [0x61] [0x76] 1, .putAt "default" [0x61] [0x77] 3]

/-- The condition is met where there are no other keys. -/
theorem getAt_newest_twoVersions :
    ∃ r, ReadsAt (MvccOp.versions twoVersions .default [0x61]) 2 r ∧
      MvccStore.getAt (MvccOp.run Db.empty twoVersions) "default" [0x61] 2 = .ok r.join := by
  refine (getAt_newest_iff_unshadowed twoVersions (by decide) "default" .default (by decide)
    [0x61] 2).mpr fun t v _ _ k' t' hne hp => ?_
  -- every version logged is one of this key
  obtain ⟨w, hw⟩ := Option.isSome_iff_exists.mp (Option.isSome_map ▸ hp)
  have hmem := List.mem_reverse.mp (List.mem_of_find?_eq_some hw)
  have hkey := List.find?_some hw
  have hall : ∀ w ∈ twoVersions.flatMap MvccOp.log, w.key = [0x61] := by decide
  simp only [decide_eq_true_eq] at hkey
  exact absurd (hkey.2.1.symm.trans (hall w hmem)) hne

end Synaptica.Storage
