import Synaptica.Lib.LexOrder

/-!
# Ordered maps with seeking iterators

An ordered key-value store offers, next to point reads, an iterator positioned at the first key
at or above a start key. `OrderedMap` is the standard library's extensional tree map over a linear
order, `seek` is that iterator, and `scan` is the loop every prefix query runs on it: *start at the
prefix, stop at the first key that does not carry it*.

The results say what such loops see in terms of the map alone:

* `mem_seek` and `pairwise_seek` — the iterator yields exactly the entries at or above the start
  key, in increasing key order;
* `scan_eq_filter` — stopping early loses nothing, because a prefix block is contiguous;
* `scan_congr` — hence a scan depends only on the entries inside its block.
-/

/-- A finite map whose keys are kept in increasing order. -/
abbrev OrderedMap (κ ν : Type) [LinearOrder κ] : Type :=
  Std.ExtTreeMap κ ν (compare : κ → κ → Ordering)

instance OrderedMap.instLawfulEqCmpCompare {κ : Type} [LinearOrder κ] :
    Std.LawfulEqCmp (compare : κ → κ → Ordering) where
  eq_of_compare := compare_eq_iff_eq.mp

instance OrderedMap.instTransCmpCompare {κ : Type} [LinearOrder κ] :
    Std.TransCmp (compare : κ → κ → Ordering) := inferInstance

instance Bytes.instLawfulEqCmpCompare : @Std.LawfulEqCmp Bytes (@compare Bytes LinearOrder.toOrd) :=
  inferInstance

instance Bytes.instTransCmpCompare : @Std.TransCmp Bytes (@compare Bytes LinearOrder.toOrd) :=
  inferInstance

/-! ## Loops that stop early on sorted lists -/

namespace List

variable {α : Type*} {R : α → α → Prop} {p : α → Bool}

/-- The first elements of a sorted list come before the others. -/
theorem rel_of_mem_take_of_not_mem_take {l : List α} (hl : l.Pairwise R) {n : Nat} {a b : α}
    (ha : a ∈ l.take n) (hb : b ∈ l) (hbn : b ∉ l.take n) : R a b := by
  rw [← List.take_append_drop n l] at hl hb
  have hdrop : b ∈ l.drop n := (List.mem_append.mp hb).resolve_left hbn
  exact (List.pairwise_append.mp hl).2.2 a ha b hdrop

/-- The last element of a sorted list comes after the others. -/
theorem eq_or_rel_of_getLast?_eq_some {l : List α} (hl : l.Pairwise R) {a b : α}
    (hb : l.getLast? = some b) (ha : a ∈ l) : a = b ∨ R a b := by
  obtain ⟨init, rfl⟩ := List.getLast?_eq_some_iff.mp hb
  rcases List.mem_append.mp ha with ha | ha
  · exact Or.inr ((List.pairwise_append.mp hl).2.2 a ha b List.mem_cons_self)
  · exact Or.inl (List.mem_singleton.mp ha)

/-- Taking the leading run of `p` keeps every element of `p` when nothing after a failure of `p`
satisfies it again. -/
theorem takeWhile_eq_filter_of_pairwise {l : List α} (hl : l.Pairwise R)
    (hp : ∀ a ∈ l, ∀ b ∈ l, R a b → p a = false → p b = false) :
    l.takeWhile p = l.filter p := by
  induction l with
  | nil => rfl
  | cons a l ih =>
    obtain ⟨ha, hl⟩ := List.pairwise_cons.mp hl
    have ih := ih hl (fun x hx y hy => hp x (mem_cons_of_mem _ hx) y (mem_cons_of_mem _ hy))
    cases hpa : p a with
    | true => simp [hpa, ih]
    | false =>
      have hnone : l.filter p = [] := by
        rw [List.filter_eq_nil_iff]
        intro b hb
        simp [hp a (by simp) b (by simp [hb]) (ha b hb) hpa]
      simp [hpa, hnone]

/-- Dropping the leading run of `p` drops every element of `p` under the same hypothesis. -/
theorem dropWhile_eq_filter_of_pairwise {l : List α} (hl : l.Pairwise R)
    (hp : ∀ a ∈ l, ∀ b ∈ l, R a b → p a = false → p b = false) :
    l.dropWhile p = l.filter (fun a => !p a) := by
  induction l with
  | nil => rfl
  | cons a l ih =>
    obtain ⟨ha, hl⟩ := List.pairwise_cons.mp hl
    have ih := ih hl (fun x hx y hy => hp x (mem_cons_of_mem _ hx) y (mem_cons_of_mem _ hy))
    cases hpa : p a with
    | true => simp [hpa, ih]
    | false =>
      have hall : l.filter (fun a => !p a) = l := by
        rw [List.filter_eq_self]
        intro b hb
        simp [hp a (by simp) b (by simp [hb]) (ha b hb) hpa]
      simp [hpa, hall]

/-- A loop that stops at the first failure of `q` and answers with the first element of `p` finds
`a` exactly when `a` satisfies both and everything before it passes `q` but not `p`. -/
theorem find?_takeWhile_eq_some_iff {q : α → Bool} [Std.Irrefl R] [Std.Asymm R] {l : List α}
    (hl : l.Pairwise R) {a : α} :
    (l.takeWhile q).find? p = some a ↔
      a ∈ l ∧ q a ∧ p a ∧ ∀ b ∈ l, R b a → q b ∧ p b = false := by
  induction l with
  | nil => simp
  | cons c l ih =>
    obtain ⟨hc, hl⟩ := List.pairwise_cons.mp hl
    have ih := ih hl
    by_cases hqc : q c
    · rw [List.takeWhile_cons_of_pos hqc]
      by_cases hpc : p c
      · rw [List.find?_cons_of_pos hpc]
        constructor
        · rintro ⟨⟩
          refine ⟨by simp, hqc, hpc, fun b hb hR => ?_⟩
          rcases List.mem_cons.mp hb with rfl | hb
          · exact absurd hR (Std.Irrefl.irrefl _)
          · exact absurd hR (Std.Asymm.asymm _ _ (hc b hb))
        · rintro ⟨ha, -, -, hbefore⟩
          rcases List.mem_cons.mp ha with rfl | ha
          · rfl
          · have := (hbefore c (by simp) (hc a ha)).2
            simp [hpc] at this
      · rw [List.find?_cons_of_neg hpc, ih]
        constructor
        · rintro ⟨ha, hqa, hpa, hbefore⟩
          refine ⟨by simp [ha], hqa, hpa, fun b hb hR => ?_⟩
          rcases List.mem_cons.mp hb with rfl | hb
          · exact ⟨hqc, by simpa using hpc⟩
          · exact hbefore b hb hR
        · rintro ⟨ha, hqa, hpa, hbefore⟩
          rcases List.mem_cons.mp ha with rfl | ha
          · exact absurd hpa hpc
          · exact ⟨ha, hqa, hpa, fun b hb => hbefore b (by simp [hb])⟩
    · rw [List.takeWhile_cons_of_neg hqc]
      simp only [List.find?_nil, reduceCtorEq, false_iff]
      rintro ⟨ha, hqa, -, hbefore⟩
      rcases List.mem_cons.mp ha with rfl | ha
      · exact hqc hqa
      · exact hqc (hbefore c (by simp) (hc a ha)).1

/-- In a list in strict order, the leading run of `q` holds what satisfies `q` along with everything
before it. -/
theorem mem_takeWhile_iff_of_pairwise {q : α → Bool} [Std.Irrefl R] [Std.Asymm R] {l : List α}
    (hl : l.Pairwise R) {a : α} : a ∈ l.takeWhile q ↔ a ∈ l ∧ q a ∧ ∀ b ∈ l, R b a → q b := by
  induction l with
  | nil => simp
  | cons c l ih =>
    obtain ⟨hc, hl⟩ := List.pairwise_cons.mp hl
    by_cases hqc : q c
    · rw [List.takeWhile_cons_of_pos hqc, List.mem_cons, ih hl]
      constructor
      · rintro (rfl | ⟨ha, hqa, hbefore⟩)
        · refine ⟨by simp, hqc, fun b hb hR => ?_⟩
          rcases List.mem_cons.mp hb with rfl | hb
          · exact hqc
          · exact absurd hR (Std.Asymm.asymm _ _ (hc b hb))
        · refine ⟨by simp [ha], hqa, fun b hb hR => ?_⟩
          rcases List.mem_cons.mp hb with rfl | hb
          · exact hqc
          · exact hbefore b hb hR
      · rintro ⟨ha, hqa, hbefore⟩
        rcases List.mem_cons.mp ha with rfl | ha
        · exact .inl rfl
        · exact .inr ⟨ha, hqa, fun b hb => hbefore b (by simp [hb])⟩
    · rw [List.takeWhile_cons_of_neg hqc]
      simp only [List.not_mem_nil, false_iff]
      rintro ⟨ha, hqa, hbefore⟩
      rcases List.mem_cons.mp ha with rfl | ha
      · exact hqc hqa
      · exact hqc (hbefore c (by simp) (hc a ha))

end List

namespace OrderedMap

variable {κ ν : Type} [LinearOrder κ]

instance : Std.Irrefl (fun a b : κ × ν => a.1 < b.1) where
  irrefl a := lt_irrefl a.1

instance : Std.Asymm (fun a b : κ × ν => a.1 < b.1) where
  asymm _ _ h := lt_asymm h

/-! ## Point reads -/

theorem getElem?_insert (m : OrderedMap κ ν) (k a : κ) (v : ν) :
    (m.insert k v)[a]? = if k = a then some v else m[a]? := by
  rw [Std.ExtTreeMap.getElem?_insert]
  simp only [compare_eq_iff_eq]

theorem getElem?_erase (m : OrderedMap κ ν) (k a : κ) :
    (m.erase k)[a]? = if k = a then none else m[a]? := by
  rw [Std.ExtTreeMap.getElem?_erase]
  simp only [compare_eq_iff_eq]

theorem mem_toList (m : OrderedMap κ ν) {e : κ × ν} : e ∈ m.toList ↔ m[e.1]? = some e.2 := by
  obtain ⟨k, v⟩ := e
  exact Std.ExtTreeMap.mem_toList_iff_getElem?_eq_some

theorem pairwise_toList (m : OrderedMap κ ν) : m.toList.Pairwise (fun a b => a.1 < b.1) := by
  have h := Std.ExtTreeMap.ordered_keys_toList (t := m)
  simpa only [compare_lt_iff_lt] using h

/-! ## Seeking -/

/-- The entries from the first key at or above `start` on, in key order. -/
def seek (m : OrderedMap κ ν) (start : κ) : List (κ × ν) :=
  m.toList.dropWhile (fun e => decide (e.1 < start))

theorem seek_eq_filter (m : OrderedMap κ ν) (start : κ) :
    seek m start = m.toList.filter (fun e => decide (start ≤ e.1)) := by
  rw [seek, List.dropWhile_eq_filter_of_pairwise (pairwise_toList m)]
  · refine List.filter_congr fun e _ => ?_
    simp [← not_lt]
  · intro a _ b _ hab ha
    simp only [decide_eq_false_iff_not, not_lt] at ha ⊢
    exact ha.trans hab.le

theorem mem_seek (m : OrderedMap κ ν) {start : κ} {e : κ × ν} :
    e ∈ seek m start ↔ m[e.1]? = some e.2 ∧ start ≤ e.1 := by
  simp [seek_eq_filter, mem_toList]

theorem pairwise_seek (m : OrderedMap κ ν) (start : κ) :
    (seek m start).Pairwise (fun a b => a.1 < b.1) := by
  rw [seek_eq_filter]
  exact (pairwise_toList m).filter _

/-- Lists of entries in strict key order are determined by their members. -/
theorem eq_of_mem_iff {l l' : List (κ × ν)} (hl : l.Pairwise (fun a b => a.1 < b.1))
    (hl' : l'.Pairwise (fun a b => a.1 < b.1)) (h : ∀ e, e ∈ l ↔ e ∈ l') : l = l' := by
  have hnd : l.Nodup := hl.imp (fun hab heq => absurd (heq ▸ hab) (lt_irrefl _))
  have hnd' : l'.Nodup := hl'.imp (fun hab heq => absurd (heq ▸ hab) (lt_irrefl _))
  have hperm : l.Perm l' := (List.perm_ext_iff_of_nodup hnd hnd').mpr h
  exact hperm.eq_of_pairwise (fun a b _ _ hab hba => absurd hab (lt_asymm hba)) hl hl'

end OrderedMap

/-! ## Prefix scans -/

namespace OrderedMap

variable {α ν : Type} [LinearOrder α]

/-- The loop of a prefix query: seek to the prefix, stop at the first key without it. -/
def scan (m : OrderedMap (List α) ν) (p : List α) : List (List α × ν) :=
  (seek m p).takeWhile (fun e => decide (p <+: e.1))

/-- Past a key at or above `start` that left the block of `p`, no later key is in the block. -/
theorem block_closed {p : List α} {a b : List α × ν} (hp : p ≤ a.1) (hab : a.1 < b.1)
    (ha : ¬ p <+: a.1) : ¬ p <+: b.1 := by
  intro hb
  exact absurd hab (lt_asymm (LexOrder.lt_of_not_startsWith hp ha hb))

/-- **Stopping at the end of the block loses nothing.** -/
theorem scan_eq_filter (m : OrderedMap (List α) ν) (p : List α) :
    scan m p = m.toList.filter (fun e => decide (p <+: e.1)) := by
  rw [scan, List.takeWhile_eq_filter_of_pairwise (pairwise_seek m p)]
  · rw [seek_eq_filter, List.filter_filter]
    refine List.filter_congr fun e _ => ?_
    by_cases h : p <+: e.1
    · simp [h, LexOrder.prefix_le h]
    · simp [h]
  · intro a ha b _ hab hpa
    simp only [decide_eq_false_iff_not] at hpa ⊢
    exact block_closed ((mem_seek m).mp ha).2 hab hpa

theorem mem_scan (m : OrderedMap (List α) ν) {p : List α} {e : List α × ν} :
    e ∈ scan m p ↔ m[e.1]? = some e.2 ∧ p <+: e.1 := by
  simp [scan_eq_filter, mem_toList]

theorem pairwise_scan (m : OrderedMap (List α) ν) (p : List α) :
    (scan m p).Pairwise (fun a b => a.1 < b.1) := by
  rw [scan_eq_filter]
  exact (pairwise_toList m).filter _

/-- A scan depends only on the entries of its block. -/
theorem scan_congr {m m' : OrderedMap (List α) ν} {p : List α}
    (h : ∀ k, p <+: k → m[k]? = m'[k]?) : scan m p = scan m' p := by
  refine eq_of_mem_iff (pairwise_scan m p) (pairwise_scan m' p) fun e => ?_
  rw [mem_scan, mem_scan]
  constructor
  · rintro ⟨he, hp⟩
    exact ⟨h e.1 hp ▸ he, hp⟩
  · rintro ⟨he, hp⟩
    exact ⟨(h e.1 hp).symm ▸ he, hp⟩

/-- A range inside one block: stopping at the end of the range or of the block loses nothing
either. -/
theorem takeWhile_seek_eq_filter_scan (m : OrderedMap (List α) ν) {p start : List α}
    (hp : p <+: start) (stop : List α) :
    (seek m start).takeWhile (fun e => decide (p <+: e.1 ∧ e.1 < stop)) =
      (scan m p).filter (fun e => decide (start ≤ e.1 ∧ e.1 < stop)) := by
  rw [List.takeWhile_eq_filter_of_pairwise (pairwise_seek m start)]
  · rw [seek_eq_filter, scan_eq_filter, List.filter_filter, List.filter_filter]
    refine List.filter_congr fun e _ => ?_
    by_cases h : p <+: e.1 <;> simp [h, Bool.and_comm]
  · intro a ha b _ hab hqa
    simp only [decide_eq_false_iff_not, not_and_or, not_lt] at hqa ⊢
    have hpa : p ≤ a.1 := (LexOrder.prefix_le hp).trans ((mem_seek m).mp ha).2
    exact hqa.imp (block_closed hpa hab) fun hstop => hstop.trans hab.le

end OrderedMap
