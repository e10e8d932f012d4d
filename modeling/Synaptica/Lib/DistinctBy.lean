import Mathlib

/-!
# The first element of each key

A loop that remembers the keys it has seen and keeps an element when its key is new. Seen through
another function of the elements, it removes exactly the duplicates when the key tells apart whatever
that function does.
-/

namespace List

variable {α β κ : Type} [DecidableEq κ] (key : α → κ)

/-- The elements whose key has not been seen. -/
def distinctBy (seen : List κ) : List α → List α
  | [] => []
  | a :: l => if key a ∈ seen then distinctBy seen l else a :: distinctBy (key a :: seen) l

/-- What has been seen may as well be taken out first. -/
theorem distinctBy_filter (seen seen' : List κ) (l : List α) :
    distinctBy key seen (l.filter fun a => key a ∉ seen') = distinctBy key (seen ++ seen') l := by
  induction l generalizing seen with
  | nil => rfl
  | cons a l ih =>
    by_cases hmem : key a ∈ seen'
    · have hboth : key a ∈ seen ++ seen' := mem_append_right _ hmem
      rw [filter_cons_of_neg (by simpa using hmem), distinctBy, if_pos hboth, ih]
    · rw [filter_cons_of_pos (by simpa using hmem), distinctBy, distinctBy, ih, ih]
      simp only [mem_append, hmem, or_false, cons_append]

/-- The first element is kept, and none of its key after it. -/
theorem distinctBy_cons (a : α) (l : List α) :
    distinctBy key [] (a :: l) = a :: distinctBy key [] (l.filter fun b => key b ≠ key a) := by
  have h := distinctBy_filter key [] [key a] l
  simp only [mem_singleton, nil_append] at h
  rw [distinctBy, if_neg not_mem_nil, ← h]

/-- Induction along the loop: after an element, go on with the elements of other keys. -/
theorem distinctBy_induction {P : List α → Prop} (nil : P [])
    (cons : ∀ a l, P (l.filter fun b => key b ≠ key a) → P (a :: l)) (l : List α) : P l := by
  induction hn : l.length using Nat.strong_induction_on generalizing l with
  | _ n ih =>
    cases l with
    | nil => exact nil
    | cons a l =>
      apply cons
      refine ih _ ?_ _ rfl
      rw [← hn]
      exact Nat.lt_succ_of_le (length_filter_le _ _)

variable {key}

theorem distinctBy_sublist (seen : List κ) (l : List α) : distinctBy key seen l <+ l := by
  induction l generalizing seen with
  | nil => exact .slnil
  | cons a l ih =>
    rw [distinctBy]
    by_cases hmem : key a ∈ seen
    · rw [if_pos hmem]
      exact (ih seen).cons a
    · rw [if_neg hmem]
      exact (ih _).cons_cons a

theorem mem_of_mem_distinctBy {a : α} {l : List α} (h : a ∈ distinctBy key [] l) : a ∈ l :=
  (distinctBy_sublist [] l).subset h

/-- No two kept elements share a key. -/
theorem nodup_keys_distinctBy (key : α → κ) (l : List α) : ((distinctBy key [] l).map key).Nodup := by
  induction l using distinctBy_induction key with
  | nil => exact .nil
  | cons a l ih =>
    rw [distinctBy_cons, map_cons]
    refine nodup_cons.mpr ⟨fun hmem => ?_, ih⟩
    obtain ⟨b, hb, hkey⟩ := mem_map.mp hmem
    exact of_decide_eq_true (mem_filter.mp (mem_of_mem_distinctBy hb)).2 hkey

/-- **Exactly the duplicates are removed**, as `tuple` sees them, when elements of one key look the same. -/
theorem map_distinctBy_eq_eraseDups_iff [BEq β] [LawfulBEq β] {tuple : α → β} {l : List α}
    (htuple : ∀ a ∈ l, ∀ b ∈ l, tuple a = tuple b → key a = key b) :
    (distinctBy key [] l).map tuple = (l.map tuple).eraseDups ↔
      ∀ a ∈ l, ∀ b ∈ l, key a = key b → tuple a = tuple b := by
  constructor
  · intro h
    -- each element looks like one that is kept
    have hkept : ∀ a ∈ l, ∃ a' ∈ distinctBy key [] l, tuple a' = tuple a := by
      intro a ha
      apply mem_map.mp
      rw [h, mem_eraseDups]
      exact mem_map_of_mem ha
    intro a ha b hb hab
    obtain ⟨a', ha', hta⟩ := hkept a ha
    obtain ⟨b', hb', htb⟩ := hkept b hb
    have hka := htuple a' (mem_of_mem_distinctBy ha') a ha hta
    have hkb := htuple b' (mem_of_mem_distinctBy hb') b hb htb
    have hsame := inj_on_of_nodup_map (nodup_keys_distinctBy key l) ha' hb'
      (hka.trans (hab.trans hkb.symm))
    rw [← hta, ← htb, hsame]
  · intro h
    induction l using distinctBy_induction key with
    | nil => rfl
    | cons a l ih =>
      have hsub : ∀ b ∈ l.filter fun b => key b ≠ key a, b ∈ a :: l :=
        fun b hb => mem_cons_of_mem _ (mem_of_mem_filter hb)
      have hrest := ih (fun b hb c hc => htuple b (hsub b hb) c (hsub c hc))
        fun b hb c hc => h b (hsub b hb) c (hsub c hc)
      have hfilter : (l.filter fun b => key b ≠ key a).map tuple =
          (l.map tuple).filter fun t => !t == tuple a := by
        rw [filter_map]
        refine congrArg _ (filter_congr fun b hb => ?_)
        have hiff : key b = key a ↔ tuple b = tuple a :=
          ⟨h b (mem_cons_of_mem _ hb) a mem_cons_self, htuple b (mem_cons_of_mem _ hb) a mem_cons_self⟩
        rw [Bool.eq_iff_iff]
        simp [hiff]
      rw [distinctBy_cons, map_cons, map_cons, eraseDups_cons, hrest, hfilter]

end List
