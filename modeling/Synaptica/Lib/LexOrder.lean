import Mathlib

/-!
# Byte strings in lexicographic order

Keys of an ordered byte store are compared lexicographically, and everything such a store can
answer by seeking rests on two facts about that order:

* strings that share a prefix form one **contiguous block** (`lt_of_not_startsWith`): what sorts at or
  above the prefix without starting with it sorts above the whole block;
* two strings of which neither is a prefix of the other are separated **for good**
  (`append_lt_append_of_lt`): no extension of either changes how they compare.

Everything is stated for lists over an arbitrary linear order; bytes are the instance the store
uses.
-/

/-- Bytes are ordered as numbers. -/
instance UInt8.instLinearOrder : LinearOrder UInt8 where
  le_refl a := UInt8.le_refl a
  le_trans _ _ _ := UInt8.le_trans
  le_antisymm _ _ := UInt8.le_antisymm
  le_total := UInt8.le_total
  lt_iff_le_not_ge a b := by
    simp only [UInt8.lt_iff_toNat_lt, UInt8.le_iff_toNat_le]
    omega
  toDecidableLE := inferInstance
  toDecidableLT := inferInstance
  toDecidableEq := inferInstance

/-- A byte string. -/
abbrev Bytes := List UInt8

namespace LexOrder

variable {α : Type*} [LinearOrder α]

/-! ## Extending on the right -/

/-- A common prefix does not take part in a comparison. -/
theorem append_lt_append_iff (p a b : List α) : p ++ a < p ++ b ↔ a < b := by
  induction p with
  | nil => simp
  | cons x p ih => simp [ih]

theorem append_le_append_iff (p a b : List α) : p ++ a ≤ p ++ b ↔ a ≤ b := by
  rw [← not_lt, ← not_lt, append_lt_append_iff]

/-- Every string sorts at or below its extensions. -/
theorem prefix_le {p x : List α} (h : p <+: x) : p ≤ x := by
  obtain ⟨t, rfl⟩ := h
  have hnil : ([] : List α) ≤ t := not_lt.mp (List.not_lt_nil t)
  simpa using (append_le_append_iff p [] t).mpr hnil

/-- Once two strings differ at a position, nothing appended to either matters. -/
theorem append_lt_append_of_lt {a b : List α} (h : a < b) (hab : ¬ a <+: b) (x y : List α) :
    a ++ x < b ++ y := by
  induction a generalizing b with
  | nil => exact absurd (List.nil_prefix) hab
  | cons c a ih =>
    cases b with
    | nil => exact absurd h (List.not_lt_nil _)
    | cons d b =>
      rw [List.cons_append, List.cons_append, List.cons_lt_cons_iff]
      rcases List.cons_lt_cons_iff.mp h with hlt | ⟨rfl, hlt⟩
      · exact Or.inl hlt
      · refine Or.inr ⟨rfl, ih hlt ?_⟩
        intro hp
        exact hab (List.cons_prefix_cons.mpr ⟨rfl, hp⟩)

/-- Strings of one length decide a comparison before their extensions do. -/
theorem append_lt_append_of_length_eq {a b : List α} (h : a < b) (hl : a.length = b.length)
    (x y : List α) : a ++ x < b ++ y := by
  refine append_lt_append_of_lt h ?_ x y
  intro hp
  exact absurd (hp.eq_of_length hl) h.ne

/-! ## The block of a prefix -/

/-- What sorts at or above `p` without starting with `p` sorts above everything that does. -/
theorem lt_of_not_startsWith {p x y : List α} (hx : p ≤ x) (hnx : ¬ p <+: x) (hy : p <+: y) :
    y < x := by
  obtain ⟨t, rfl⟩ := hy
  have hlt : p < x := lt_of_le_of_ne hx (fun h => hnx (h ▸ List.prefix_refl _))
  simpa using append_lt_append_of_lt hlt hnx t []

/-- The block of `p` is an interval: whatever sorts between two members is a member. -/
theorem prefix_of_between {p x y z : List α} (hx : p <+: x) (hz : p <+: z) (hxy : x ≤ y)
    (hyz : y ≤ z) : p <+: y := by
  by_contra hny
  have := lt_of_not_startsWith ((prefix_le hx).trans hxy) hny hz
  exact absurd hyz (not_le.mpr this)

end LexOrder

namespace LexOrder

variable {α : Type*}

/-! ## Incomparable strings -/

/-- Neither string is a prefix of the other. -/
def Incomparable (a b : List α) : Prop := ¬ a <+: b ∧ ¬ b <+: a

instance [DecidableEq α] (a b : List α) : Decidable (Incomparable a b) :=
  inferInstanceAs (Decidable (_ ∧ _))

theorem Incomparable.symm {a b : List α} (h : Incomparable a b) : Incomparable b a :=
  ⟨h.2, h.1⟩

/-- Extensions of incomparable strings never share a prefix block. -/
theorem Incomparable.not_prefix_append {a b : List α} (h : Incomparable a b) (x : List α) :
    ¬ a <+: b ++ x := by
  intro hp
  rcases List.prefix_or_prefix_of_prefix hp (List.prefix_append b x) with hab | hba
  · exact h.1 hab
  · exact h.2 hba

/-- Incomparable strings are ordered as all their extensions are. -/
theorem Incomparable.append_lt_append_iff [LinearOrder α] {a b : List α} (h : Incomparable a b)
    (x y : List α) : a ++ x < b ++ y ↔ a < b := by
  constructor
  · intro hlt
    rcases lt_trichotomy a b with hab | rfl | hba
    · exact hab
    · exact absurd (List.prefix_refl a) h.1
    · exact absurd hlt (lt_asymm (append_lt_append_of_lt hba h.2 y x))
  · exact fun hab => append_lt_append_of_lt hab h.1 x y

end LexOrder
