import Mathlib

/-!
# Tables of half-open intervals

A table whose entries each own an interval `[start, stop)` of a linear order. Two entries **clash**
when each starts before the other stops. That test sees more than a common point (an empty interval
inside another one clashes with it), but never less: entries that do not clash share no point. A
table in which no two entries clash therefore answers a lookup by the first entry that owns the
point, whatever the order of its entries is.
-/

namespace Intervals

variable {ι α : Type*} [LinearOrder α] {start stop : ι → α}

/-- Each of the two starts before the other stops. -/
def Clash (start stop : ι → α) (a b : ι) : Prop := start a < stop b ∧ start b < stop a

/-- The entry owns the point. -/
def Owns (start stop : ι → α) (a : ι) (x : α) : Prop := start a ≤ x ∧ x < stop a

instance (start stop : ι → α) (a b : ι) : Decidable (Clash start stop a b) :=
  inferInstanceAs (Decidable (_ ∧ _))

instance (start stop : ι → α) (a : ι) (x : α) : Decidable (Owns start stop a x) :=
  inferInstanceAs (Decidable (_ ∧ _))

theorem Clash.symm {a b : ι} (h : Clash start stop a b) : Clash start stop b a := And.symm h

/-- A common point makes two entries clash. -/
theorem Owns.clash {a b : ι} {x : α} (ha : Owns start stop a x) (hb : Owns start stop b x) :
    Clash start stop a b :=
  ⟨ha.1.trans_lt hb.2, hb.1.trans_lt ha.2⟩

/-- Between entries that own anything at all, the test is exact. -/
theorem clash_iff_exists_owns {a b : ι} (ha : start a < stop a) (hb : start b < stop b) :
    Clash start stop a b ↔ ∃ x, Owns start stop a x ∧ Owns start stop b x := by
  constructor
  · intro h
    -- The later of the two starts belongs to both.
    refine ⟨max (start a) (start b), ⟨le_max_left _ _, ?_⟩, ⟨le_max_right _ _, ?_⟩⟩
    · exact max_lt ha h.2
    · exact max_lt h.1 hb
  · rintro ⟨x, hax, hbx⟩
    exact hax.clash hbx

/-- No two entries of the table clash. -/
def Separate (start stop : ι → α) (table : List ι) : Prop :=
  table.Pairwise fun a b => ¬ Clash start stop a b

/-- The order of the entries does not matter. -/
theorem Separate.perm {table table' : List ι} (h : Separate start stop table)
    (hperm : table.Perm table') : Separate start stop table' := by
  apply (hperm.pairwise_iff _).mp h
  intro a b hab hba
  exact hab hba.symm

/-- An entry that clashes with none can join the table. -/
theorem Separate.append_singleton {table : List ι} {a : ι} (h : Separate start stop table)
    (ha : ∀ b ∈ table, ¬ Clash start stop a b) : Separate start stop (table ++ [a]) := by
  apply List.pairwise_append.mpr
  refine ⟨h, List.pairwise_singleton _ _, ?_⟩
  intro b hb c hc hbc
  rw [List.mem_singleton] at hc
  subst hc
  exact ha b hb hbc.symm

/-- A point has at most one owner, counted with multiplicity. -/
theorem Separate.not_owned_twice {table : List ι} (h : Separate start stop table) (x : α) :
    table.Pairwise fun a b => ¬ (Owns start stop a x ∧ Owns start stop b x) := by
  apply h.imp
  intro a b hab howns
  exact hab (howns.1.clash howns.2)

/-- The first owner is the only one. -/
theorem Separate.find?_eq_some {table : List ι} {a : ι} {x : α} (h : Separate start stop table)
    (ha : a ∈ table) (hx : Owns start stop a x) :
    table.find? (fun b => decide (Owns start stop b x)) = some a := by
  induction table with
  | nil => exact absurd ha List.not_mem_nil
  | cons b table ih =>
    obtain ⟨hb, htable⟩ := List.pairwise_cons.mp h
    rcases List.mem_cons.mp ha with rfl | hmem
    · exact List.find?_cons_of_pos (decide_eq_true hx)
    · have hnot : ¬ Owns start stop b x := by
        intro hbx
        exact hb a hmem (hbx.clash hx)
      rw [List.find?_cons_of_neg (by simpa using hnot)]
      exact ih htable hmem

end Intervals
