import Mathlib

/-!
# Sequences that may stop early

A sequence of fallible steps is read from the left, and once a step answers `stop` the steps behind it
need not be taken. `Guarded` says that the reading never fails: every step answers, unless one before it
answers `stop`. It is what allows a sequence to be taken apart and put together in another order.
-/

namespace ShortCircuit

variable {α β ε : Type*} (f : α → Except ε β) (stop : β)

/-- Every step answers, unless one before it answers `stop`. -/
def Guarded : List α → Prop
  | [] => True
  | a :: l => (∃ b, f a = .ok b) ∧ (f a ≠ .ok stop → Guarded l)

variable {f stop} {l l' : List α}

theorem guarded_singleton {a : α} : Guarded f stop [a] ↔ ∃ b, f a = .ok b := by
  simp [Guarded]

theorem guarded_of_forall (h : ∀ a ∈ l, ∃ b, f a = .ok b) : Guarded f stop l := by
  induction l with
  | nil => trivial
  | cons a l ih =>
    exact ⟨h a List.mem_cons_self, fun _ => ih fun b hb => h b (List.mem_cons_of_mem _ hb)⟩

/-- One sequence behind another one. -/
theorem guarded_append : Guarded f stop (l ++ l') ↔
    Guarded f stop l ∧ ((∀ a ∈ l, f a ≠ .ok stop) → Guarded f stop l') := by
  induction l with
  | nil => simp [Guarded]
  | cons a l ih =>
    rw [List.cons_append, Guarded, Guarded, ih]
    simp only [List.forall_mem_cons]
    tauto

/-- When no step answers `stop`, every step answers. -/
theorem Guarded.exists_ok (h : Guarded f stop l) (hstop : ∀ a ∈ l, f a ≠ .ok stop) {a : α}
    (ha : a ∈ l) : ∃ b, f a = .ok b := by
  induction l with
  | nil => cases ha
  | cons c l ih =>
    obtain ⟨hc, hrest⟩ := List.forall_mem_cons.mp hstop
    rcases List.mem_cons.mp ha with rfl | ha
    · exact h.1
    · exact ih (h.2 hc) hrest ha

/-- Steps that do not answer `stop` may be left out. -/
theorem Guarded.filter {p : α → Bool} (h : Guarded f stop l)
    (hp : ∀ a ∈ l, p a = false → f a ≠ .ok stop) : Guarded f stop (l.filter p) := by
  induction l with
  | nil => trivial
  | cons a l ih =>
    obtain ⟨ha, hrest⟩ := List.forall_mem_cons.mp hp
    rw [List.filter_cons]
    split
    · exact ⟨h.1, fun hstop => ih (h.2 hstop) hrest⟩
    · next hpa => exact ih (h.2 (ha (Bool.eq_false_iff.mpr hpa))) hrest

end ShortCircuit
