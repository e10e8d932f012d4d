import Synaptica.Storage.MvccReads

/-!
# Collecting old versions

`gc_before` walks the versions of the keys under a prefix and removes, of each key, those at or
below a watermark that a newer version at or below the watermark replaces. The walk remembers one
key at a time and starts over whenever the key changes; versions of keys that extend one another
may interleave, so a key can be met, left and met again.

Starting over only ever keeps more. `Collected` says what a collection may and may not do, and
`gcBefore_collected` that this is what happens, whatever the keys are:

* readers at or above the watermark find the same newest version of every key;
* a version goes only if it is at or below the watermark, is one of a key under the prefix, and a
  newer one of the same key at or below the watermark stays;
* everything else stays as it was, and the count returned is the number of versions removed.
-/

namespace Synaptica.Storage

open Versioned

namespace MvccStore

/-! ## The code -/

/-- The loop of `gc_before`: the entries to delete. `lastKey` is the key whose versions are being
walked, `foundVisible` whether one of them at or below the watermark has been passed. -/
def gcLoop (pre : Bytes) (watermark : UInt64) :
    Option Bytes → Bool → List (Bytes × Bytes) → List Bytes
  | _, _, [] => []
  | lastKey, foundVisible, (k, _) :: rest =>
    let keyPrefix := extractKeyPrefix k
    if ¬ pre <+: keyPrefix then []
    else
      -- a new key group starts without a visible version
      let foundVisible := if lastKey = some keyPrefix then foundVisible else false
      if (decodeVersionedTimestamp k).getD 0 ≤ watermark then
        if foundVisible then k :: gcLoop pre watermark (some keyPrefix) foundVisible rest
        else gcLoop pre watermark (some keyPrefix) true rest
      else gcLoop pre watermark (some keyPrefix) foundVisible rest

/-- `to_delete` on an opened column family. -/
def toDelete (table : Table) (pre : Bytes) (watermark : UInt64) : List Bytes :=
  gcLoop pre watermark none false (OrderedMap.seek table (encodeVersionedKey pre u64Max))

/-- `gc_before`: the store afterwards, and how many versions were removed. -/
def gcBefore (db : Db) (cfName : String) (pre : Bytes) (watermark : UInt64) :
    MvccResult (Db × Nat) := do
  let c ← mvccCf cfName
  let keys := toDelete (db c) pre watermark
  return (db.write (keys.map fun k => .delete c k), keys.length)

/-! ## The loop -/

/-- One step of the walk: whether a version of the key was passed is what the state says, if the
state is about that key. -/
theorem gcLoop_cons (p : Bytes) (w : UInt64) (last : Option Bytes) (found : Bool) (k v : Bytes)
    (l : List (Bytes × Bytes)) :
    gcLoop p w last found ((k, v) :: l) =
      if p <+: extractKeyPrefix k then
        if (decodeVersionedTimestamp k).getD 0 ≤ w then
          if last = some (extractKeyPrefix k) ∧ found = true then
            k :: gcLoop p w (some (extractKeyPrefix k)) true l
          else gcLoop p w (some (extractKeyPrefix k)) true l
        else gcLoop p w (some (extractKeyPrefix k))
          (decide (last = some (extractKeyPrefix k) ∧ found = true)) l
      else [] := by
  rw [gcLoop]
  by_cases hlast : last = some (extractKeyPrefix k)
  · cases found <;> simp [hlast, ite_not]
  · simp [hlast, ite_not]

/-- The loop picks entries it walks, in order. -/
theorem gcLoop_sublist (p : Bytes) (w : UInt64) (last : Option Bytes) (found : Bool)
    (l : List (Bytes × Bytes)) : (gcLoop p w last found l).Sublist (l.map Prod.fst) := by
  induction l generalizing last found with
  | nil => exact List.Sublist.refl _
  | cons e l ih =>
    obtain ⟨b, v⟩ := e
    rw [gcLoop_cons, List.map_cons]
    split
    · split
      · split
        · exact (ih _ _).cons_cons b
        · exact (ih _ _).cons b
      · exact (ih _ _).cons b
    · exact List.nil_sublist _

/-- Why the loop picked an entry: a version of the same key was seen at or below the watermark,
either before the loop started or among the entries it walked and left alone. -/
theorem mem_gcLoop {p : Bytes} {w : UInt64} {last : Option Bytes} {found : Bool}
    {l : List (Bytes × Bytes)} (hl : l.Pairwise fun a b => a.1 < b.1) {b : Bytes}
    (hb : b ∈ gcLoop p w last found l) :
    p <+: extractKeyPrefix b ∧ (decodeVersionedTimestamp b).getD 0 ≤ w ∧
      ((last = some (extractKeyPrefix b) ∧ found = true) ∨
        ∃ e ∈ l, e.1 < b ∧ extractKeyPrefix e.1 = extractKeyPrefix b ∧
          (decodeVersionedTimestamp e.1).getD 0 ≤ w ∧ e.1 ∉ gcLoop p w last found l) := by
  induction l generalizing last found with
  | nil => cases hb
  | cons e l ih =>
    obtain ⟨k, v⟩ := e
    obtain ⟨hhead, hl⟩ := List.pairwise_cons.mp hl
    -- what the rest picks comes after `k`
    have hafter : ∀ last found, ∀ b ∈ gcLoop p w last found l, k < b := by
      intro last found b hb
      obtain ⟨e, he, rfl⟩ := List.mem_map.mp ((gcLoop_sublist p w last found l).subset hb)
      exact hhead e he
    rw [gcLoop_cons] at hb ⊢
    split_ifs at hb ⊢ with hp hts hfound
    · -- `k` is picked: the state vouches for it, and for every later version of its key
      rcases List.mem_cons.mp hb with rfl | hb
      · exact ⟨hp, hts, .inl hfound⟩
      · obtain ⟨hpb, htb, hwhy⟩ := ih hl hb
        refine ⟨hpb, htb, ?_⟩
        rcases hwhy with ⟨hkey, -⟩ | ⟨e, he, hlt, hkey, hte, hkept⟩
        · exact .inl (Option.some.inj hkey ▸ hfound)
        · refine .inr ⟨e, List.mem_cons_of_mem _ he, hlt, hkey, hte, fun hmem => ?_⟩
          rcases List.mem_cons.mp hmem with heq | hmem
          · exact absurd (hhead e he) (heq ▸ lt_irrefl _)
          · exact hkept hmem
    · -- `k` stays, and is the reason to pick later versions of its key
      obtain ⟨hpb, htb, hwhy⟩ := ih hl hb
      refine ⟨hpb, htb, .inr ?_⟩
      rcases hwhy with ⟨hkey, -⟩ | ⟨e, he, hlt, hkey, hte, hkept⟩
      · refine ⟨(k, v), List.mem_cons_self, hafter _ _ b hb, Option.some.inj hkey, hts, ?_⟩
        exact fun hmem => lt_irrefl k (hafter _ _ k hmem)
      · exact ⟨e, List.mem_cons_of_mem _ he, hlt, hkey, hte, hkept⟩
    · -- `k` is above the watermark and leaves the state about its key as it was
      obtain ⟨hpb, htb, hwhy⟩ := ih hl hb
      refine ⟨hpb, htb, ?_⟩
      rcases hwhy with ⟨hkey, hfound⟩ | ⟨e, he, hlt, hkey, hte, hkept⟩
      · exact .inl (Option.some.inj hkey ▸ of_decide_eq_true hfound)
      · exact .inr ⟨e, List.mem_cons_of_mem _ he, hlt, hkey, hte, hkept⟩
    · cases hb

theorem nodup_toDelete (m : Table) (p : Bytes) (w : UInt64) : (toDelete m p w).Nodup := by
  refine (gcLoop_sublist p w none false _).nodup ?_
  have hsorted := List.pairwise_map.mpr (OrderedMap.pairwise_seek m (encodeVersionedKey p u64Max))
  exact hsorted.imp fun hlt => hlt.ne

theorem isSome_of_mem_toDelete {m : Table} {p : Bytes} {w : UInt64} {b : Bytes}
    (hb : b ∈ toDelete m p w) : (m[b]?).isSome := by
  obtain ⟨e, he, rfl⟩ := List.mem_map.mp ((gcLoop_sublist p w none false _).subset hb)
  simp [((OrderedMap.mem_seek m).mp he).1]

/-- A version picked for deletion is replaced by one that stays. -/
theorem replaced_of_mem_toDelete {m : Table} (hm : AllVersioned m) {p : Bytes} {w : UInt64}
    {k : Bytes} {t : UInt64} (hb : encodeVersionedKey k t ∈ toDelete m p w) :
    p <+: k ∧ t ≤ w ∧ ∃ u, t < u ∧ u ≤ w ∧ (m[encodeVersionedKey k u]?).isSome ∧
      encodeVersionedKey k u ∉ toDelete m p w := by
  obtain ⟨hp, ht, hwhy⟩ := mem_gcLoop (OrderedMap.pairwise_seek m _) hb
  rw [extractKeyPrefix_encode] at hp hwhy
  rw [decodeVersionedTimestamp_encode, Option.getD_some] at ht
  refine ⟨hp, ht, ?_⟩
  rcases hwhy with ⟨hnone, -⟩ | ⟨e, he, hlt, hkey, hte, hkept⟩
  · cases hnone
  · have hpresent := ((OrderedMap.mem_seek m).mp he).1
    have hdec := encode_extract_decode (hm e.1 (by simp [hpresent]))
    rw [hkey] at hdec
    rw [← hdec] at hlt hpresent hkept
    exact ⟨_, (encodeVersionedKey_lt_iff k _ t).mp hlt, hte, by simp [hpresent], hkept⟩

end MvccStore

/-! ## What a collection does -/

/-- `m'` is what is left of the versions `m` after a collection under `p` with watermark `w` that
reports `count` removals. -/
structure Collected (p : Bytes) (w : UInt64) (m m' : Table) (count : Nat) : Prop where
  newest : ∀ k s, w ≤ s → ∀ t v,
    (IsNewest (TableVersions m' k) s t ∧ m'[encodeVersionedKey k t]? = some v) ↔
      (IsNewest (TableVersions m k) s t ∧ m[encodeVersionedKey k t]? = some v)
  removed : ∀ k t, (m[encodeVersionedKey k t]?).isSome → m'[encodeVersionedKey k t]? = none →
    p <+: k ∧ t ≤ w ∧ ∃ u, t < u ∧ u ≤ w ∧ (m'[encodeVersionedKey k u]?).isSome
  kept : ∀ b : Bytes, m'[b]? = m[b]? ∨ m'[b]? = none
  count_eq : count = (m.toList.filter fun e => decide (m'[e.1]? = none)).length

/-- Deleting replaced versions is a collection. -/
theorem collected_of_deletes {m m' : Table} {p : Bytes} {w : UInt64} (hm : AllVersioned m)
    (hget : ∀ b : Bytes, m'[b]? = if b ∈ MvccStore.toDelete m p w then none else m[b]?) :
    Collected p w m m' (MvccStore.toDelete m p w).length := by
  have hkept : ∀ b : Bytes, m'[b]? = m[b]? ∨ m'[b]? = none := by
    intro b
    rw [hget b]
    split
    · exact .inr rfl
    · exact .inl rfl
  have hremoved : ∀ k t, (m[encodeVersionedKey k t]?).isSome →
      m'[encodeVersionedKey k t]? = none →
      p <+: k ∧ t ≤ w ∧ ∃ u, t < u ∧ u ≤ w ∧ (m'[encodeVersionedKey k u]?).isSome := by
    intro k t hp hnone
    have hdel : encodeVersionedKey k t ∈ MvccStore.toDelete m p w := by
      by_contra hno
      rw [hget, if_neg hno] at hnone
      simp [hnone] at hp
    obtain ⟨hpk, htw, u, htu, huw, hu, hstay⟩ := MvccStore.replaced_of_mem_toDelete hm hdel
    refine ⟨hpk, htw, u, htu, huw, ?_⟩
    rwa [hget, if_neg hstay]
  have hnewest : ∀ k s t, w ≤ s →
      (IsNewest (TableVersions m' k) s t ↔ IsNewest (TableVersions m k) s t) := by
    intro k s t hs
    refine isNewest_iff_of_thinned hs (fun t => ?_) fun t ht hnone => ?_
    · rcases hkept (encodeVersionedKey k t) with heq | hnone
      · simp [TableVersions, heq]
      · simp [TableVersions, hnone]
    · obtain ⟨-, -, u, htu, huw, hu⟩ := hremoved k t (by simpa [TableVersions] using ht)
        (by simpa [TableVersions] using hnone)
      exact ⟨u, htu, huw, by simpa [TableVersions] using hu⟩
  refine ⟨fun k s hs t v => ?_, hremoved, hkept, ?_⟩
  · rw [hnewest k s t hs]
    refine and_congr_right fun hnew => ?_
    -- the newest version is there afterwards, so it is the one that was there
    have hthere : (m'[encodeVersionedKey k t]?).isSome := by
      simpa [TableVersions] using ((hnewest k s t hs).mpr hnew).present
    rcases hkept (encodeVersionedKey k t) with heq | hnone
    · rw [heq]
    · simp [hnone] at hthere
  · have hperm : ((m.toList.filter fun e => decide (m'[e.1]? = none)).map Prod.fst).Perm
        (MvccStore.toDelete m p w) := by
      refine (List.perm_ext_iff_of_nodup ?_ (MvccStore.nodup_toDelete m p w)).mpr fun b => ?_
      · have hsorted := List.pairwise_map.mpr
          ((OrderedMap.pairwise_toList m).filter fun e => decide (m'[e.1]? = none))
        exact hsorted.imp fun hlt => hlt.ne
      · simp only [List.mem_map, List.mem_filter, OrderedMap.mem_toList, decide_eq_true_eq]
        constructor
        · rintro ⟨e, ⟨hpresent, hnone⟩, rfl⟩
          by_contra hno
          rw [hget, if_neg hno, hpresent] at hnone
          cases hnone
        · intro hb
          obtain ⟨v, hv⟩ := Option.isSome_iff_exists.mp (MvccStore.isSome_of_mem_toDelete hb)
          exact ⟨(b, v), ⟨hv, by rw [hget, if_pos hb]⟩, rfl⟩
    rw [← hperm.length_eq, List.length_map]

/-- **Collecting old versions is invisible at and above the watermark**, removes what it says and
nothing else. -/
theorem gcBefore_collected (db : Db) (cfName : String) (c : ColumnFamily)
    (hc : cfHandle cfName = some c) (hm : AllVersioned (db c)) (p : Bytes) (w : UInt64) :
    ∃ db' count, MvccStore.gcBefore db cfName p w = .ok (db', count) ∧
      Collected p w (db c) (db' c) count ∧ ∀ c', c' ≠ c → db' c' = db c' := by
  refine ⟨db.write ((MvccStore.toDelete (db c) p w).map fun k => .delete c k),
    (MvccStore.toDelete (db c) p w).length, ?_, ?_, ?_⟩
  · simp [MvccStore.gcBefore, mvccCf, hc, bind, Except.bind, pure, Except.pure]
  · refine collected_of_deletes hm fun b => ?_
    have hwrite := Db.getElem?_write_deletes db c c id (MvccStore.toDelete (db c) p w) b
    simpa using hwrite
  · intro c' hne
    refine Db.write_of_forall_cf_ne fun op hop => ?_
    obtain ⟨k, -, rfl⟩ := List.mem_map.mp hop
    exact fun heq => hne heq.symm

/-- Versions of `a` and of a key that extends it: the extension's version sorts between the two old
versions of `a`. -/
def interleavedVersions : List MvccOp :=
  [.putAt "default" [0x61] [0x76] 1, .putAt "default" [0x61] [0x77] 2,
    .putAt "default" ([0x61] ++ BigEndian.beBytes 8 (~~~(2 : UInt64)).toNat) [0x78] 1]

theorem gcBefore_interleavedVersions :
    ∃ db' count, MvccStore.gcBefore (MvccOp.run Db.empty interleavedVersions) "default" [0x61] 5 =
        .ok (db', count) ∧
      Collected [0x61] 5 (MvccOp.run Db.empty interleavedVersions .default) (db' .default) count ∧
      ∀ c', c' ≠ .default → db' c' = MvccOp.run Db.empty interleavedVersions c' :=
  gcBefore_collected _ "default" .default (by decide)
    (MvccOp.allVersioned_run interleavedVersions .default) [0x61] 5

end Synaptica.Storage
