import Synaptica.Lib.OrderedMap

/-!
# Grouping a list by a key

Elements are collected in an ordered map, each behind those of its key that came before it. Every key
that occurs has one entry, which holds the elements of that key in their order.
-/

namespace OrderedMap

variable {α κ : Type} [LinearOrder κ] (key : α → κ)

/-- Put each element behind the others of its key. -/
def collect (groups : OrderedMap κ (List α)) : List α → OrderedMap κ (List α)
  | [] => groups
  | a :: l => collect (groups.insert (key a) ((groups[key a]?).getD [] ++ [a])) l

/-- The elements of one key. -/
def ofKey (l : List α) (k : κ) : List α := l.filter fun a => key a = k

variable {key}

theorem mem_ofKey {l : List α} {k : κ} {a : α} : a ∈ ofKey key l k ↔ a ∈ l ∧ key a = k := by
  simp [ofKey]

theorem getElem?_collect (groups : OrderedMap κ (List α)) (l : List α) (k : κ) :
    (collect key groups l)[k]? =
      if ofKey key l k = [] then groups[k]? else some ((groups[k]?).getD [] ++ ofKey key l k) := by
  induction l generalizing groups with
  | nil => rfl
  | cons a l ih =>
    rw [collect, ih, getElem?_insert]
    by_cases hk : key a = k
    · have hcons : ofKey key (a :: l) k = a :: ofKey key l k := by simp [ofKey, hk]
      rw [hcons, if_pos hk, hk, if_neg (List.cons_ne_nil _ _), Option.getD_some]
      by_cases hnil : ofKey key l k = []
      · rw [if_pos hnil, hnil]
      · rw [if_neg hnil, List.append_assoc, List.singleton_append]
    · have hskip : ofKey key (a :: l) k = ofKey key l k := by simp [ofKey, hk]
      rw [hskip, if_neg hk]

/-- **The groups**: one for each key that occurs, with the elements of that key. -/
theorem mem_toList_collect {l : List α} {g : κ × List α} :
    g ∈ (collect key ∅ l).toList ↔ g.2 = ofKey key l g.1 ∧ g.2 ≠ [] := by
  rw [mem_toList, getElem?_collect]
  by_cases hnil : ofKey key l g.1 = []
  · rw [if_pos hnil, hnil]
    simp
  · rw [if_neg hnil]
    simp only [Std.ExtTreeMap.getElem?_empty, Option.getD_none, List.nil_append, Option.some.injEq]
    constructor
    · intro h
      exact ⟨h.symm, h ▸ hnil⟩
    · rintro ⟨h, -⟩
      exact h.symm

/-- **The groups of some of the elements** are the groups cut down to these, without those that become
empty. -/
theorem toList_collect_filter (p : α → Bool) (l : List α) :
    (collect key ∅ (l.filter p)).toList = (collect key ∅ l).toList.filterMap fun g =>
      if g.2.filter p = [] then none else some (g.1, g.2.filter p) := by
  have hmem : ∀ g, g ∈ (collect key ∅ (l.filter p)).toList ↔
      g ∈ (collect key ∅ l).toList.filterMap fun g =>
        if g.2.filter p = [] then none else some (g.1, g.2.filter p) := by
    intro g
    have hcut : ofKey key (l.filter p) g.1 = (ofKey key l g.1).filter p := List.filter_comm _ _ _
    rw [mem_toList_collect, hcut, List.mem_filterMap]
    constructor
    · rintro ⟨hg, hne⟩
      refine ⟨(g.1, ofKey key l g.1), mem_toList_collect.mpr ⟨rfl, ?_⟩, ?_⟩
      · intro hnil
        apply hne
        rw [hg, show ofKey key l g.1 = [] from hnil]
        rfl
      · rw [if_neg (hg ▸ hne), ← hg]
    · rintro ⟨g', hg', hcut'⟩
      obtain ⟨hrecords, -⟩ := mem_toList_collect.mp hg'
      by_cases hnil : g'.2.filter p = []
      · rw [if_pos hnil] at hcut'
        cases hcut'
      · rw [if_neg hnil] at hcut'
        cases hcut'
        exact ⟨by rw [hrecords], hnil⟩
  refine eq_of_mem_iff (pairwise_toList _) ?_ hmem
  rw [List.pairwise_filterMap]
  refine (pairwise_toList (collect key ∅ l)).imp fun {a b} hlt c hc d hd => ?_
  have hkept : ∀ g h : κ × List α,
      (if g.2.filter p = [] then none else some (g.1, g.2.filter p)) = some h → h.1 = g.1 := by
    intro g h hgh
    by_cases hnil : g.2.filter p = []
    · rw [if_pos hnil] at hgh
      cases hgh
    · rw [if_neg hnil] at hgh
      rw [← Option.some.inj hgh]
  rw [hkept a c hc, hkept b d hd]
  exact hlt

/-- Elements of one key are one group. -/
theorem toList_collect_of_forall {l : List α} {k : κ} (hne : l ≠ []) (hkey : ∀ a ∈ l, key a = k) :
    (collect key ∅ l).toList = [(k, l)] := by
  have hall : ofKey key l k = l := by
    rw [ofKey, List.filter_eq_self]
    intro a ha
    exact decide_eq_true (hkey a ha)
  refine eq_of_mem_iff (pairwise_toList _) (List.pairwise_singleton _ _) fun g => ?_
  rw [mem_toList_collect, List.mem_singleton]
  constructor
  · rintro ⟨hg, hgne⟩
    obtain ⟨a, ha⟩ := List.exists_mem_of_ne_nil _ hgne
    obtain ⟨hal, hak⟩ := mem_ofKey.mp (hg ▸ ha)
    have hk : g.1 = k := hak.symm.trans (hkey a hal)
    rw [hk, hall] at hg
    exact Prod.ext hk hg
  · intro hg
    subst hg
    exact ⟨hall.symm, hne⟩

theorem nodup_keys_toList (m : OrderedMap κ (List α)) : (m.toList.map (·.1)).Nodup := by
  rw [List.Nodup, List.pairwise_map]
  exact (pairwise_toList m).imp fun h => h.ne

end OrderedMap
