import Synaptica.Storage.MvccReads

/-!
# What a read does not depend on

A read at a snapshot must not notice entries written later. Which entries it cannot notice is a
matter of byte order again: for a point read of `k`, entries that do not start with `k` at all and
versions of `k` itself above the snapshot; for a scan of `p`, entries that do not start with `p`
and versions above the snapshot of keys that do.

* `readAt_congr` and `scanAt_congr` — tables that differ only in such entries read the same.
* `readAt_write` and `scanAt_write` — so a batch of such entries does not change a read.

`versionedBatch_mem` and `AllVersioned.write` say what the batches of a commit hold.
-/

namespace Synaptica.Storage

open Versioned BigEndian

/-- An entry a point read of `k` at `s` cannot notice. -/
def UnseenByGet (k : Bytes) (s : UInt64) (b : Bytes) : Prop :=
  ¬ k <+: b ∨ (extractKeyPrefix b = k ∧ s < (decodeVersionedTimestamp b).getD 0)

/-- An entry a scan of `p` at `s` cannot notice. -/
def UnseenByScan (p : Bytes) (s : UInt64) (b : Bytes) : Prop :=
  ¬ p <+: b ∨ (p <+: extractKeyPrefix b ∧ s < (decodeVersionedTimestamp b).getD 0)

instance (k : Bytes) (s : UInt64) (b : Bytes) : Decidable (UnseenByGet k s b) :=
  inferInstanceAs (Decidable (_ ∨ _))

instance (p : Bytes) (s : UInt64) (b : Bytes) : Decidable (UnseenByScan p s b) :=
  inferInstanceAs (Decidable (_ ∨ _))

namespace MvccStore

/-! ## Point reads -/

theorem hit_of_congr {m m' : Table} (hm : AllVersioned m) (hm' : AllVersioned m') {k : Bytes}
    {s : UInt64} (h : ∀ b : Bytes, m[b]? = m'[b]? ∨ UnseenByGet k s b) {b v : Bytes}
    (hhit : hit m k s = some (b, v)) : hit m' k s = some (b, v) := by
  obtain ⟨t, rfl, hmb, hts, hbefore⟩ := (hit_eq_some_iff hm).mp hhit
  refine (hit_eq_some_iff hm').mpr ⟨t, rfl, ?_, hts, fun k' t' hp hlo hhi => ?_⟩
  · rcases h (encodeVersionedKey k t) with heq | hno | ⟨-, hlt⟩
    · rw [← heq, hmb]
    · exact absurd (prefix_encodeVersionedKey k t) hno
    · rw [decodeVersionedTimestamp_encode, Option.getD_some] at hlt
      exact absurd hts (not_le.mpr hlt)
  · rcases h (encodeVersionedKey k' t') with heq | hno | ⟨hk, hlt⟩
    · exact hbefore k' t' (heq ▸ hp) hlo hhi
    · -- what lies between two strings that start with `k` starts with `k`
      exact absurd (LexOrder.prefix_of_between (prefix_encodeVersionedKey k u64Max)
        (prefix_encodeVersionedKey k t) hlo hhi.le) hno
    · rw [extractKeyPrefix_encode] at hk
      rw [decodeVersionedTimestamp_encode, Option.getD_some] at hlt
      exact ⟨hk, hlt⟩

/-- **A point read sees no difference** in entries that are unseen by it. -/
theorem readAt_congr {m m' : Table} (hm : AllVersioned m) (hm' : AllVersioned m') {k : Bytes}
    {s : UInt64} (h : ∀ b : Bytes, m[b]? = m'[b]? ∨ UnseenByGet k s b) :
    readAt m k s = readAt m' k s := by
  have h' : ∀ b : Bytes, m'[b]? = m[b]? ∨ UnseenByGet k s b := fun b => (h b).imp Eq.symm id
  have heq : hit m k s = hit m' k s := by
    apply Option.ext
    rintro ⟨b, v⟩
    exact ⟨hit_of_congr hm hm' h, hit_of_congr hm' hm h'⟩
  rw [readAt_eq_hit, readAt_eq_hit, heq]

/-! ## Scans -/

/-- Stopping at a key outside the block is reading the leading run of the block. -/
theorem prefixScanLoop_takeWhile (p : Bytes) (s : UInt64) (last : Option Bytes)
    (l : List (Bytes × Bytes)) :
    prefixScanLoop p s last l =
      prefixScanLoop p s last (l.takeWhile fun e => decide (p <+: extractKeyPrefix e.1)) := by
  induction l generalizing last with
  | nil => rfl
  | cons e l ih =>
    obtain ⟨b, v⟩ := e
    by_cases hp : p <+: extractKeyPrefix b
    · rw [List.takeWhile_cons_of_pos (by simpa using hp)]
      simp only [prefixScanLoop, hp, not_true, if_false]
      rw [ih last, ih (some (extractKeyPrefix b))]
    · rw [List.takeWhile_cons_of_neg (by simpa using hp)]
      simp [prefixScanLoop, hp]

/-- Versions above the snapshot are passed over. -/
theorem prefixScanLoop_filter {p : Bytes} {s : UInt64} (last : Option Bytes)
    {l : List (Bytes × Bytes)} (hl : ∀ e ∈ l, p <+: extractKeyPrefix e.1) :
    prefixScanLoop p s last l =
      prefixScanLoop p s last
        (l.filter fun e => decide ((decodeVersionedTimestamp e.1).getD 0 ≤ s)) := by
  induction l generalizing last with
  | nil => rfl
  | cons e l ih =>
    obtain ⟨b, v⟩ := e
    have hp : p <+: extractKeyPrefix b := hl (b, v) List.mem_cons_self
    have ih := fun last => ih last fun e he => hl e (List.mem_cons_of_mem _ he)
    by_cases hs : (decodeVersionedTimestamp b).getD 0 ≤ s
    · rw [List.filter_cons_of_pos (by simpa using hs)]
      simp only [prefixScanLoop, hp, hs, not_true, if_false, if_true]
      rw [← ih last, ← ih (some (extractKeyPrefix b))]
    · rw [List.filter_cons_of_neg (by simpa using hs), ← ih last]
      simp [prefixScanLoop, hp, hs]

/-- The entries a scan of `p` at `s` looks at. -/
def visible (m : Table) (p : Bytes) (s : UInt64) : List (Bytes × Bytes) :=
  ((OrderedMap.seek m (encodeVersionedKey p u64Max)).takeWhile
    fun e => decide (p <+: extractKeyPrefix e.1)).filter
      fun e => decide ((decodeVersionedTimestamp e.1).getD 0 ≤ s)

theorem scanAt_eq_visible (m : Table) (p : Bytes) (s : UInt64) :
    scanAt m p s = prefixScanLoop p s none (visible m p s) := by
  rw [scanAt, prefixScanLoop_takeWhile, visible]
  refine prefixScanLoop_filter none fun e he => ?_
  simpa using List.mem_takeWhile_imp he

theorem mem_visible {m : Table} {p : Bytes} {s : UInt64} {e : Bytes × Bytes} :
    e ∈ visible m p s ↔
      (m[e.1]? = some e.2 ∧ encodeVersionedKey p u64Max ≤ e.1) ∧ p <+: extractKeyPrefix e.1 ∧
        (∀ b : Bytes, m[b]?.isSome → encodeVersionedKey p u64Max ≤ b → b < e.1 →
          p <+: extractKeyPrefix b) ∧ (decodeVersionedTimestamp e.1).getD 0 ≤ s := by
  rw [visible, List.mem_filter,
    List.mem_takeWhile_iff_of_pairwise (OrderedMap.pairwise_seek m _), OrderedMap.mem_seek]
  simp only [decide_eq_true_eq, OrderedMap.mem_seek, Prod.forall, Option.isSome_iff_exists]
  constructor
  · rintro ⟨⟨he, hp, hbefore⟩, hs⟩
    exact ⟨he, hp, fun b ⟨v, hv⟩ hlo hhi => hbefore b v ⟨hv, hlo⟩ hhi, hs⟩
  · rintro ⟨he, hp, hbefore, hs⟩
    exact ⟨⟨he, hp, fun b v hv hhi => hbefore b ⟨v, hv.1⟩ hv.2 hhi⟩, hs⟩

theorem prefix_of_extractKeyPrefix {p b : Bytes} (h : p <+: extractKeyPrefix b) : p <+: b := by
  refine h.trans ?_
  unfold extractKeyPrefix
  split
  · exact List.take_prefix _ _
  · exact List.prefix_refl b

theorem mem_visible_of_congr {m m' : Table} {p : Bytes} {s : UInt64}
    (h : ∀ b : Bytes, m[b]? = m'[b]? ∨ UnseenByScan p s b) {e : Bytes × Bytes}
    (he : e ∈ visible m p s) : e ∈ visible m' p s := by
  obtain ⟨⟨hme, hlo⟩, hp, hbefore, hts⟩ := mem_visible.mp he
  refine mem_visible.mpr ⟨⟨?_, hlo⟩, hp, fun b hb hlob hhi => ?_, hts⟩
  · rcases h e.1 with heq | hno | ⟨-, hlt⟩
    · rw [← heq, hme]
    · exact absurd (prefix_of_extractKeyPrefix hp) hno
    · exact absurd hts (not_le.mpr hlt)
  · rcases h b with heq | hno | ⟨hpb, -⟩
    · exact hbefore b (heq ▸ hb) hlob hhi
    · exact absurd (LexOrder.prefix_of_between (prefix_encodeVersionedKey p u64Max)
        (prefix_of_extractKeyPrefix hp) hlob hhi.le) hno
    · exact hpb

/-- **A scan sees no difference** in entries that are unseen by it. -/
theorem scanAt_congr {m m' : Table} {p : Bytes} {s : UInt64}
    (h : ∀ b : Bytes, m[b]? = m'[b]? ∨ UnseenByScan p s b) : scanAt m p s = scanAt m' p s := by
  have h' : ∀ b : Bytes, m'[b]? = m[b]? ∨ UnseenByScan p s b := fun b => (h b).imp Eq.symm id
  have hsorted : ∀ m : Table, (visible m p s).Pairwise (fun a b => a.1 < b.1) := fun m =>
    ((OrderedMap.pairwise_seek m _).sublist (List.takeWhile_sublist _)).filter _
  rw [scanAt_eq_visible, scanAt_eq_visible,
    OrderedMap.eq_of_mem_iff (hsorted m) (hsorted m')
      fun e => ⟨mem_visible_of_congr h, mem_visible_of_congr h'⟩]

/-! ## Batches -/

/-- A batch that writes only unseen entries does not change a point read. -/
theorem readAt_write {db : Db} {batch : WriteBatch} {c : ColumnFamily} {k : Bytes} {s : UInt64}
    (hm : AllVersioned (db c)) (hm' : AllVersioned (db.write batch c))
    (h : ∀ op ∈ batch, op.cf = c → UnseenByGet k s op.key) :
    readAt (db.write batch c) k s = readAt (db c) k s := by
  refine readAt_congr hm' hm fun b => ?_
  by_cases hb : ∃ op ∈ batch, op.cf = c ∧ op.key = b
  · obtain ⟨op, hop, hc, rfl⟩ := hb
    exact .inr (h op hop hc)
  · left
    refine Db.getElem?_write_of_forall_ne fun op hop hne => ?_
    exact hb ⟨op, hop, hne⟩

/-- A batch that writes only unseen entries does not change a scan. -/
theorem scanAt_write {db : Db} {batch : WriteBatch} {c : ColumnFamily} {p : Bytes} {s : UInt64}
    (h : ∀ op ∈ batch, op.cf = c → UnseenByScan p s op.key) :
    scanAt (db.write batch c) p s = scanAt (db c) p s := by
  refine scanAt_congr fun b => ?_
  by_cases hb : ∃ op ∈ batch, op.cf = c ∧ op.key = b
  · obtain ⟨op, hop, hc, rfl⟩ := hb
    exact .inr (h op hop hc)
  · left
    refine Db.getElem?_write_of_forall_ne fun op hop hne => ?_
    exact hb ⟨op, hop, hne⟩

end MvccStore

/-- A batch of long enough keys leaves only long enough keys. -/
theorem AllVersioned.write {db : Db} {batch : WriteBatch} {c : ColumnFamily}
    (hm : AllVersioned (db c)) (h : ∀ op ∈ batch, 8 ≤ op.key.length) :
    AllVersioned (db.write batch c) := by
  intro b hb
  by_cases hop : ∃ op ∈ batch, op.cf = c ∧ op.key = b
  · obtain ⟨op, hop, -, rfl⟩ := hop
    exact h op hop
  · refine hm b ?_
    rwa [Db.getElem?_write_of_forall_ne fun op hmem hne => hop ⟨op, hmem, hne⟩] at hb

/-- A resolved write says what the requested one said. -/
theorem resolve_mem {writes : List (String × Bytes × Option Bytes)} {t : UInt64}
    {ws : List VersionWrite} (h : MvccOp.resolve t writes = some ws) {v : VersionWrite}
    (hv : v ∈ ws) :
    v.timestamp = t ∧ ∃ w ∈ writes, cfHandle w.1 = some v.cf ∧ w.2.1 = v.key ∧ w.2.2 = v.value := by
  induction writes generalizing ws with
  | nil =>
    cases h
    cases hv
  | cons w writes ih =>
    obtain ⟨cfName, key, value⟩ := w
    simp only [MvccOp.resolve, Option.bind_eq_bind, Option.bind_eq_some_iff, Option.pure_def,
      Option.some.injEq] at h
    obtain ⟨c, hc, ws', hws', rfl⟩ := h
    rcases List.mem_cons.mp hv with rfl | hv
    · exact ⟨rfl, _, List.mem_cons_self, hc, rfl, rfl⟩
    · obtain ⟨ht, w, hw, heq⟩ := ih hws' hv
      exact ⟨ht, w, List.mem_cons_of_mem _ hw, heq⟩

/-- Only known column families resolve. -/
theorem cfHandle_of_resolve {writes : List (String × Bytes × Option Bytes)} {t : UInt64}
    {ws : List VersionWrite} (h : MvccOp.resolve t writes = some ws) :
    ∀ w ∈ writes, (cfHandle w.1).isSome := by
  induction writes generalizing ws with
  | nil => simp
  | cons w writes ih =>
    obtain ⟨cfName, key, value⟩ := w
    simp only [MvccOp.resolve, Option.bind_eq_bind, Option.bind_eq_some_iff, Option.pure_def,
      Option.some.injEq] at h
    obtain ⟨c, hc, ws', hws', -⟩ := h
    intro w hw
    rcases List.mem_cons.mp hw with rfl | hw
    · simp [hc]
    · exact ih hws' w hw

/-- Resolving writes attaches a column family and the timestamp to each. -/
theorem resolve_eq_map {writes : List (String × Bytes × Option Bytes)} {t : UInt64}
    {ws : List VersionWrite} (h : MvccOp.resolve t writes = some ws) :
    ws = writes.map fun w => ⟨(cfHandle w.1).getD .default, w.2.1, t, w.2.2⟩ := by
  induction writes generalizing ws with
  | nil =>
    cases h
    rfl
  | cons w writes ih =>
    obtain ⟨cfName, key, value⟩ := w
    simp only [MvccOp.resolve, Option.bind_eq_bind, Option.bind_eq_some_iff, Option.pure_def,
      Option.some.injEq] at h
    obtain ⟨c, hc, ws', hws', rfl⟩ := h
    simp [hc, ih hws']

theorem versionedBatch_eq_ok {writes : List (String × Bytes × Option Bytes)} {t : UInt64}
    {batch : WriteBatch} (h : MvccStore.versionedBatch writes t = .ok batch) :
    ∃ ws, MvccOp.resolve t writes = some ws ∧ batch = ws.map VersionWrite.toOp := by
  have hopt := MvccOp.versionedBatch_toOption t writes
  rw [h] at hopt
  obtain ⟨ws, hws, hbatch⟩ := Option.map_eq_some_iff.mp hopt.symm
  exact ⟨ws, hws, hbatch.symm⟩

/-- What a commit's batch is made of. -/
theorem versionedBatch_mem {writes : List (String × Bytes × Option Bytes)} {t : UInt64}
    {batch : WriteBatch} (h : MvccStore.versionedBatch writes t = .ok batch) {op : WriteOp}
    (hop : op ∈ batch) :
    op.key.length ≥ 8 ∧
      ∃ w ∈ writes, cfHandle w.1 = some op.cf ∧ op.key = encodeVersionedKey w.2.1 t := by
  obtain ⟨ws, hws, rfl⟩ := versionedBatch_eq_ok h
  obtain ⟨v, hv, rfl⟩ := List.mem_map.mp hop
  obtain ⟨rfl, w, hw, hc, hk, -⟩ := resolve_mem hws hv
  refine ⟨by simp [VersionWrite.toOp, WriteOp.key], w, hw, hc, ?_⟩
  rw [hk]
  rfl

end Synaptica.Storage
