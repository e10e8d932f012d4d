import Synaptica.Storage.MvccFrame

/-!
# Scans agree with point reads

`prefix_scan_at` walks the versions of every key under a prefix in one pass, remembering the key it
dealt with last; `get_at` seeks to one key. Where no key extends another the two agree: the versions
of a key then form one run of the column family, newest first, the runs come in key order, and no
version of another key ends the walk early.

* `KeysApart` is that layout condition, and `readAt_eq_some_iff` what a point read is under it.
* `mem_visible_iff` — the walk meets every visible version of every key under the prefix.
* `prefixScanLoop_spec` — of each run the loop reports the first, in key order.
* `prefixScanAt_eq_getAt` — a scan returns what the point reads of the keys under the prefix return.
-/

namespace Synaptica.Storage

open Versioned

/-- No key with a version extends another one. -/
def KeysApart (m : Table) : Prop :=
  ∀ b b' : Bytes, (m[b]?).isSome → (m[b']?).isSome →
    extractKeyPrefix b <+: extractKeyPrefix b' → extractKeyPrefix b = extractKeyPrefix b'

/-- The last version read back from its stored value. -/
theorem versionOf_eq_some {value v : Bytes} : versionOf value = some v ↔ value = v ∧ v ≠ [] := by
  unfold versionOf isTombstone
  cases value with
  | nil =>
    simp only [List.isEmpty_nil, if_true, reduceCtorEq, false_iff]
    rintro ⟨rfl, hne⟩
    exact hne rfl
  | cons b bs =>
    simp only [List.isEmpty_cons, Bool.false_eq_true, if_false, Option.some.injEq]
    constructor
    · rintro rfl
      exact ⟨rfl, List.cons_ne_nil b bs⟩
    · exact fun h => h.1

theorem replicate_zero_le (n : Nat) {l : Bytes} (h : n ≤ l.length) : List.replicate n 0 ≤ l := by
  induction n generalizing l with
  | zero => exact LexOrder.prefix_le List.nil_prefix
  | succ n ih =>
    cases l with
    | nil => cases h
    | cons b l =>
      have hle := ih (Nat.le_of_succ_le_succ h)
      rw [← not_lt] at hle ⊢
      rw [List.replicate_succ, List.cons_lt_cons_iff]
      rintro (hlt | ⟨-, hlt⟩)
      · exact absurd hlt (not_lt.mpr (UInt8.le_iff_toNat_le.mpr (Nat.zero_le b.toNat)))
      · exact hle hlt

/-- A scan starts at or before every version of a key under its prefix. -/
theorem encode_u64Max_le_of_prefix {p k : Bytes} (h : p <+: k) (t : UInt64) :
    encodeVersionedKey p u64Max ≤ encodeVersionedKey k t := by
  obtain ⟨rest, rfl⟩ := h
  rw [encodeVersionedKey, encodeVersionedKey, List.append_assoc, LexOrder.append_le_append_iff]
  exact replicate_zero_le 8 (by simp)

namespace MvccStore

variable {m : Table} (hm : AllVersioned m) (hapart : KeysApart m)

include hapart

/-! ## Point reads -/

/-- Nothing gets in the way of a point read. -/
theorem unshadowed_of_keysApart (k : Bytes) (s : UInt64) : Unshadowed (TableVersions m) k s := by
  intro t v ht _ k' t' hne hp ⟨hlo, hhi⟩
  have hk : (m[encodeVersionedKey k t]?).isSome := by simpa [TableVersions] using ht.present
  have hk' : (m[encodeVersionedKey k' t']?).isSome := by simpa [TableVersions] using hp
  have hpre := LexOrder.prefix_of_between (prefix_encodeVersionedKey k u64Max)
    (prefix_encodeVersionedKey k t) hlo hhi.le
  have heq := hapart _ _ hk hk'
  have heq' := hapart _ _ hk' hk
  rw [extractKeyPrefix_encode, extractKeyPrefix_encode] at heq heq'
  rcases List.prefix_or_prefix_of_prefix hpre (prefix_encodeVersionedKey k' t') with h | h
  · exact hne (heq h).symm
  · exact hne (heq' h)

include hm

/-- A point read finds the newest visible version, if it is no deletion. -/
theorem readAt_eq_some_iff {k v : Bytes} {s : UInt64} :
    readAt m k s = some v ↔
      ∃ t, IsNewest (TableVersions m k) s t ∧ m[encodeVersionedKey k t]? = some v ∧ v ≠ [] := by
  obtain ⟨r, hr, hread⟩ := (readAt_newest_iff hm k s).mpr (unshadowed_of_keysApart hapart k s)
  rw [hread]
  constructor
  · intro h
    obtain rfl : r = some (some v) := Option.join_eq_some_iff.mp h
    obtain ⟨t, ht, hv⟩ := hr
    obtain ⟨value, hmem, hval⟩ := Option.map_eq_some_iff.mp hv
    obtain ⟨rfl, hne⟩ := versionOf_eq_some.mp hval
    exact ⟨t, ht, hmem, hne⟩
  · rintro ⟨t, ht, hmem, hne⟩
    have hv : TableVersions m k t = some (some v) := by
      rw [TableVersions, hmem, Option.map_some, versionOf_eq_some.mpr ⟨rfl, hne⟩]
    rw [hr.unique (show ReadsAt (TableVersions m k) s (some (some v)) from ⟨t, ht, hv⟩)]
    rfl

/-! ## What the walk meets -/

theorem mem_visible_iff {p : Bytes} {s : UInt64} {e : Bytes × Bytes} :
    e ∈ visible m p s ↔
      m[e.1]? = some e.2 ∧ p <+: extractKeyPrefix e.1 ∧
        (decodeVersionedTimestamp e.1).getD 0 ≤ s := by
  rw [mem_visible]
  constructor
  · rintro ⟨⟨he, -⟩, hp, -, hts⟩
    exact ⟨he, hp, hts⟩
  · rintro ⟨he, hp, hts⟩
    have hdec := encode_extract_decode (hm e.1 (by simp [he]))
    refine ⟨⟨he, hdec ▸ encode_u64Max_le_of_prefix hp _⟩, hp, fun b hb hlo hhi => ?_, hts⟩
    -- an entry before `e` starts with `p`; its key is no shorter than `p`
    have hpb : p <+: b := LexOrder.prefix_of_between (prefix_encodeVersionedKey p u64Max)
      (prefix_of_extractKeyPrefix hp) hlo hhi.le
    have hkb := prefix_of_extractKeyPrefix (List.prefix_refl (extractKeyPrefix b))
    rcases List.prefix_or_prefix_of_prefix hpb hkb with h | h
    · exact h
    · exact hapart b e.1 hb (by simp [he]) (h.trans hp) ▸ hp

/-- The walk meets the keys in order. -/
theorem keys_visible (p : Bytes) (s : UInt64) :
    (visible m p s).Pairwise fun a b => extractKeyPrefix a.1 ≤ extractKeyPrefix b.1 := by
  have hsorted : (visible m p s).Pairwise fun a b => a.1 < b.1 :=
    ((OrderedMap.pairwise_seek m _).sublist (List.takeWhile_sublist _)).filter _
  refine hsorted.imp_of_mem fun {a b} ha hb hlt => ?_
  have hpa := ((mem_visible_iff hm hapart).mp ha).1
  have hpb := ((mem_visible_iff hm hapart).mp hb).1
  have hdeca := encode_extract_decode (hm a.1 (by simp [hpa]))
  have hdecb := encode_extract_decode (hm b.1 (by simp [hpb]))
  by_contra hgt
  rw [not_le] at hgt
  have hno : ¬ extractKeyPrefix b.1 <+: extractKeyPrefix a.1 := by
    intro hpre
    have heq := hapart b.1 a.1 (by simp [hpb]) (by simp [hpa]) hpre
    exact absurd hgt (heq ▸ lt_irrefl _)
  have hba := LexOrder.append_lt_append_of_lt hgt hno
    (BigEndian.beBytes 8 (~~~((decodeVersionedTimestamp b.1).getD 0)).toNat)
    (BigEndian.beBytes 8 (~~~((decodeVersionedTimestamp a.1).getD 0)).toNat)
  rw [← encodeVersionedKey, ← encodeVersionedKey, hdeca, hdecb] at hba
  exact lt_asymm hlt hba

omit hm hapart

/-! ## The loop -/

/-- Over visible entries in key order, the loop reports the first entry of each key past the key it
starts from, unless that entry is a deletion; it reports keys in order. -/
theorem prefixScanLoop_spec {p : Bytes} {s : UInt64} (last : Option Bytes)
    {l : List (Bytes × Bytes)} (hl : l.Pairwise fun a b => extractKeyPrefix a.1 ≤ extractKeyPrefix b.1)
    (hvis : ∀ e ∈ l, p <+: extractKeyPrefix e.1 ∧ (decodeVersionedTimestamp e.1).getD 0 ≤ s)
    (hlast : ∀ k, last = some k → ∀ e ∈ l, k ≤ extractKeyPrefix e.1) :
    ((prefixScanLoop p s last l).Pairwise fun a b => a.1 < b.1) ∧
      ∀ k v, (k, v) ∈ prefixScanLoop p s last l ↔
        last ≠ some k ∧ v ≠ [] ∧
          ∃ b, l.find? (fun e => decide (extractKeyPrefix e.1 = k)) = some (b, v) := by
  induction l generalizing last with
  | nil => simp [prefixScanLoop]
  | cons e l ih =>
    obtain ⟨b, value⟩ := e
    obtain ⟨hhead, hl⟩ := List.pairwise_cons.mp hl
    obtain ⟨hp, hts⟩ := hvis (b, value) List.mem_cons_self
    have hvis := fun e he => hvis e (List.mem_cons_of_mem _ he)
    -- a key before `b`'s is not met any more
    have hgone : ∀ k, k ≠ extractKeyPrefix b → last = some k →
        l.find? (fun e => decide (extractKeyPrefix e.1 = k)) = none := by
      intro k hne hk
      have hlt := lt_of_le_of_ne (hlast k hk (b, value) List.mem_cons_self) hne
      refine List.find?_eq_none.mpr fun e he heq => ?_
      rw [decide_eq_true_eq] at heq
      exact absurd (heq ▸ hhead e he) (not_le.mpr hlt)
    have hfind : ∀ k, k ≠ extractKeyPrefix b →
        ((b, value) :: l).find? (fun e => decide (extractKeyPrefix e.1 = k)) =
          l.find? (fun e => decide (extractKeyPrefix e.1 = k)) := by
      intro k hne
      exact List.find?_cons_of_neg (by simpa using hne.symm)
    have hother : ∀ k v, k ≠ extractKeyPrefix b →
        ((some (extractKeyPrefix b) ≠ some k ∧ v ≠ [] ∧
            ∃ b', l.find? (fun e => decide (extractKeyPrefix e.1 = k)) = some (b', v)) ↔
          (last ≠ some k ∧ v ≠ [] ∧
            ∃ b', l.find? (fun e => decide (extractKeyPrefix e.1 = k)) = some (b', v))) := by
      intro k v hne
      apply and_congr_left
      rintro ⟨-, b', hb'⟩
      refine iff_of_true (fun h => hne (Option.some.inj h).symm) fun h => ?_
      rw [hgone k hne h] at hb'
      cases hb'
    have hhere : ((b, value) :: l).find?
        (fun e => decide (extractKeyPrefix e.1 = extractKeyPrefix b)) = some (b, value) :=
      List.find?_cons_of_pos (by simp)
    obtain ⟨hsorted, hmem⟩ := ih (some (extractKeyPrefix b)) hl hvis
      (fun k hk e he => Option.some.inj hk ▸ hhead e he)
    by_cases hkey : last = some (extractKeyPrefix b)
    · -- an older version of the key dealt with last
      obtain ⟨hsorted, hmem⟩ := ih last hl hvis
        (fun k hk e he => hlast k hk e (List.mem_cons_of_mem _ he))
      rw [prefixScanLoop, if_neg (not_not.mpr hp), if_pos hkey]
      refine ⟨hsorted, fun k v => ?_⟩
      rw [hmem k v]
      by_cases hk : k = extractKeyPrefix b
      · simp [hk, hkey]
      · rw [hfind k hk]
    · rw [prefixScanLoop, if_neg (not_not.mpr hp), if_neg hkey, if_pos hts]
      split
      · next htomb =>
        refine ⟨hsorted, fun k v => ?_⟩
        rw [hmem k v]
        by_cases hk : k = extractKeyPrefix b
        · subst hk
          rw [hhere]
          rw [isTombstone, List.isEmpty_iff] at htomb
          simp only [ne_eq, not_true, false_and, Option.some.injEq, Prod.mk.injEq, false_iff]
          rintro ⟨-, hne, b', -, rfl⟩
          exact hne htomb
        · rw [hfind k hk]
          exact hother k v hk
      · next htomb =>
        refine ⟨List.pairwise_cons.mpr ⟨fun a ha => ?_, hsorted⟩, fun k v => ?_⟩
        · obtain ⟨hne, -, b', hb'⟩ := (hmem a.1 a.2).mp ha
          have hmem' := List.mem_of_find?_eq_some hb'
          have hkey' := List.find?_some hb'
          rw [decide_eq_true_eq] at hkey'
          refine lt_of_le_of_ne (hkey' ▸ hhead _ hmem') fun heq => hne (congrArg some heq)
        · rw [List.mem_cons, hmem k v]
          by_cases hk : k = extractKeyPrefix b
          · subst hk
            rw [hhere]
            rw [isTombstone, List.isEmpty_iff] at htomb
            simp only [Prod.mk.injEq, true_and, ne_eq, not_true, false_and, or_false,
              Option.some.injEq]
            constructor
            · rintro rfl
              exact ⟨hkey, htomb, b, rfl, rfl⟩
            · rintro ⟨-, -, b', -, rfl⟩
              rfl
          · rw [hfind k hk]
            simp only [Prod.mk.injEq, hk, false_and, false_or]
            exact hother k v hk

include hm hapart

/-! ## The scan -/

/-- The first visible version of a key is its newest. -/
theorem find_visible {p k v : Bytes} {s : UInt64} :
    (∃ b, (visible m p s).find? (fun e => decide (extractKeyPrefix e.1 = k)) = some (b, v)) ↔
      p <+: k ∧ ∃ t, IsNewest (TableVersions m k) s t ∧ m[encodeVersionedKey k t]? = some v := by
  have hsorted : (visible m p s).Pairwise fun a b => a.1 < b.1 :=
    ((OrderedMap.pairwise_seek m _).sublist (List.takeWhile_sublist _)).filter _
  have hfind : ∀ e, (visible m p s).find? (fun e => decide (extractKeyPrefix e.1 = k)) = some e ↔
      e ∈ visible m p s ∧ extractKeyPrefix e.1 = k ∧
        ∀ b ∈ visible m p s, b.1 < e.1 → extractKeyPrefix b.1 ≠ k := by
    intro e
    have hall : (visible m p s).takeWhile (fun _ => true) = visible m p s := by simp
    rw [← hall, List.find?_takeWhile_eq_some_iff hsorted, hall]
    simp
  constructor
  · rintro ⟨b, hb⟩
    obtain ⟨hmem, hkey, hfirst⟩ := (hfind _).mp hb
    obtain ⟨hval, hp, hts⟩ := (mem_visible_iff hm hapart).mp hmem
    have hdec := encode_extract_decode (hm b (by simp [hval]))
    rw [hkey] at hdec
    rw [hkey] at hp
    refine ⟨hp, _, ⟨?_, hts, fun t' ht' hle => ?_⟩, hdec.symm ▸ hval⟩
    · simp [TableVersions, hdec, hval]
    · by_contra hlt
      obtain ⟨value, hvalue⟩ := Option.isSome_iff_exists.mp
        (show (m[encodeVersionedKey k t']?).isSome by simpa [TableVersions] using ht')
      refine hfirst (encodeVersionedKey k t', value) ?_ ?_ (by simp)
      · exact (mem_visible_iff hm hapart).mpr ⟨hvalue, by simpa using hp, by simpa using hle⟩
      · show encodeVersionedKey k t' < b
        rw [← hdec, encodeVersionedKey_lt_iff]
        exact not_le.mp hlt
  · rintro ⟨hp, t, ht, hval⟩
    refine ⟨encodeVersionedKey k t, (hfind _).mpr ⟨?_, by simp, fun b hb hlt hkey => ?_⟩⟩
    · exact (mem_visible_iff hm hapart).mpr ⟨hval, by simpa using hp, by simpa using ht.visible⟩
    · obtain ⟨hvb, -, htb⟩ := (mem_visible_iff hm hapart).mp hb
      have hdec := encode_extract_decode (hm b.1 (by simp [hvb]))
      rw [hkey] at hdec
      rw [← hdec, encodeVersionedKey_lt_iff] at hlt
      refine absurd (ht.newest _ ?_ htb) (not_le.mpr hlt)
      simp [TableVersions, hdec, hvb]

/-- **A scan agrees with the point reads**, where no key extends another. -/
theorem scanAt_eq_readAt (p : Bytes) (s : UInt64) :
    ((scanAt m p s).Pairwise fun a b => a.1 < b.1) ∧
      ∀ k v, (k, v) ∈ scanAt m p s ↔ p <+: k ∧ readAt m k s = some v := by
  have hvis : ∀ e ∈ visible m p s,
      p <+: extractKeyPrefix e.1 ∧ (decodeVersionedTimestamp e.1).getD 0 ≤ s :=
    fun e he => ((mem_visible_iff hm hapart).mp he).2
  obtain ⟨hsorted, hmem⟩ := prefixScanLoop_spec none (keys_visible hm hapart p s) hvis
    (fun k hk => by cases hk)
  rw [scanAt_eq_visible]
  refine ⟨hsorted, fun k v => ?_⟩
  rw [hmem, find_visible hm hapart, readAt_eq_some_iff hm hapart]
  constructor
  · rintro ⟨-, hne, hp, t, ht, hval⟩
    exact ⟨hp, t, ht, hval, hne⟩
  · rintro ⟨hp, t, ht, hval, hne⟩
    exact ⟨by simp, hne, hp, t, ht, hval⟩

end MvccStore

/-! ## Contents the store can produce -/

/-- A run leaves versions of the keys it logged. -/
theorem MvccOp.exists_log_of_run {ops : List MvccOp} {c : ColumnFamily} {b : Bytes}
    (h : (MvccOp.run Db.empty ops c)[b]?.isSome) :
    ∃ w ∈ ops.flatMap MvccOp.log, w.cf = c ∧ w.key = extractKeyPrefix b := by
  rw [MvccOp.run_eq_write] at h
  by_contra hno
  rw [Db.getElem?_write_of_forall_ne] at h
  · simp [Db.empty] at h
  · intro op hop hck
    obtain ⟨w, hw, rfl⟩ := List.mem_map.mp hop
    refine hno ⟨w, hw, hck.1, ?_⟩
    rw [← hck.2, VersionWrite.toOp, WriteOp.key, extractKeyPrefix_encode]

/-- **Prefix scans agree with point reads**: after any run of writes over keys of which none extends
another, a scan returns each key under the prefix once, in ascending order, with the value a point
read of it returns. -/
theorem prefixScanAt_eq_getAt (ops : List MvccOp) (cfName : String) (c : ColumnFamily)
    (hc : cfHandle cfName = some c)
    (hkeys : ∀ w ∈ ops.flatMap MvccOp.log, ∀ w' ∈ ops.flatMap MvccOp.log, w.cf = c → w'.cf = c →
      w.key <+: w'.key → w.key = w'.key) (p : Bytes) (s : UInt64) :
    ∃ r, MvccStore.prefixScanAt (MvccOp.run Db.empty ops) cfName p s = .ok r ∧
      (r.Pairwise fun a b => a.1 < b.1) ∧
      ∀ k v, (k, v) ∈ r ↔
        p <+: k ∧ MvccStore.getAt (MvccOp.run Db.empty ops) cfName k s = .ok (some v) := by
  have hapart : KeysApart (MvccOp.run Db.empty ops c) := by
    intro b b' hb hb' hpre
    obtain ⟨w, hw, hwc, hkey⟩ := MvccOp.exists_log_of_run hb
    obtain ⟨w', hw', hwc', hkey'⟩ := MvccOp.exists_log_of_run hb'
    rw [← hkey, ← hkey'] at hpre ⊢
    exact hkeys w hw w' hw' hwc hwc' hpre
  obtain ⟨hsorted, hmem⟩ :=
    MvccStore.scanAt_eq_readAt (MvccOp.allVersioned_run ops c) hapart p s
  refine ⟨MvccStore.scanAt (MvccOp.run Db.empty ops c) p s, ?_, hsorted, fun k v => ?_⟩
  · simp [MvccStore.prefixScanAt, mvccCf, hc, bind, Except.bind, pure, Except.pure]
  · rw [hmem]
    simp [MvccStore.getAt, mvccCf, hc, bind, Except.bind, pure, Except.pure]

/-- Two keys under one prefix: the first has a version past the snapshot, the second is deleted
before it. -/
def writtenAndDeleted : List MvccOp :=
  [.putAt "default" [0x61, 0x62] [0x76] 1, .putAt "default" [0x61, 0x62] [0x77] 3,
    .putAt "default" [0x61, 0x63] [0x78] 1, .deleteAt "default" [0x61, 0x63] 2]

theorem prefixScanAt_writtenAndDeleted :
    ∃ r, MvccStore.prefixScanAt (MvccOp.run Db.empty writtenAndDeleted) "default" [0x61] 2 = .ok r ∧
      (r.Pairwise fun a b => a.1 < b.1) ∧
      ∀ k v, (k, v) ∈ r ↔ [0x61] <+: k ∧
        MvccStore.getAt (MvccOp.run Db.empty writtenAndDeleted) "default" k 2 = .ok (some v) :=
  prefixScanAt_eq_getAt writtenAndDeleted "default" .default (by decide) (by decide) [0x61] 2

end Synaptica.Storage
