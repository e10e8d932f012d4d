import Mathlib

/-!
# Terminated strings

Keys that hold strings of any length close each of them with a separator that the strings
themselves do not contain. What a byte-prefix query then finds can be read off the strings: with the
separator it matches one string exactly (`terminated_prefix_iff`), without it all strings that start
so (`prefix_terminated_iff`).
-/

namespace Terminated

variable {α : Type*} {s : α} {a b x y : List α}

/-- Without the separator, a query reads no further than the string. -/
theorem prefix_terminated_iff (ha : s ∉ a) : a <+: b ++ s :: y ↔ a <+: b := by
  constructor
  · intro h
    induction a generalizing b with
    | nil => exact List.nil_prefix
    | cons c a ih =>
      obtain ⟨hc, hmem⟩ : s ≠ c ∧ s ∉ a := by simpa using ha
      cases b with
      | nil => exact absurd (List.cons_prefix_cons.mp h).1.symm hc
      | cons d b =>
        obtain ⟨rfl, htail⟩ := List.cons_prefix_cons.mp h
        exact List.cons_prefix_cons.mpr ⟨rfl, ih hmem htail⟩
  · intro h
    exact h.trans (List.prefix_append _ _)

/-- With the separator, a query matches one string exactly. -/
theorem terminated_prefix_iff (ha : s ∉ a) (hb : s ∉ b) :
    a ++ s :: x <+: b ++ s :: y ↔ a = b ∧ x <+: y := by
  induction a generalizing b with
  | nil =>
    cases b with
    | nil => simp
    | cons d b =>
      have hne : s ≠ d := by
        rintro rfl
        exact hb List.mem_cons_self
      simp [hne]
  | cons c a ih =>
    obtain ⟨hc, hmem⟩ : s ≠ c ∧ s ∉ a := by simpa using ha
    cases b with
    | nil => simp [hc.symm]
    | cons d b =>
      have hmem' : s ∉ b := fun h => hb (List.mem_cons_of_mem _ h)
      simp [List.cons_prefix_cons, ih hmem hmem', and_assoc]

/-- What follows the separator can be told apart, too. -/
theorem terminated_inj (ha : s ∉ a) (hb : s ∉ b) : a ++ s :: x = b ++ s :: y ↔ a = b ∧ x = y := by
  constructor
  · intro h
    have hprefix : a ++ s :: x <+: b ++ s :: y := h ▸ List.prefix_refl _
    obtain ⟨rfl, -⟩ := (terminated_prefix_iff ha hb).mp hprefix
    exact ⟨rfl, (List.cons.inj (List.append_cancel_left h)).2⟩
  · rintro ⟨rfl, rfl⟩
    rfl

end Terminated
