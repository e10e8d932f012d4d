import Mathlib

/-!
# Lists that enumerate a predicate

`l.Enumerates P` says that `l` holds exactly the elements with `P`, each once. It is how an answer in
the form of a list is compared with what the answer should be when the order does not matter.
-/

namespace List

variable {α β : Type}

/-- The elements of the list are those with `P`, each once. -/
def Enumerates (l : List α) (P : α → Prop) : Prop := l.Nodup ∧ ∀ a, a ∈ l ↔ P a

variable {l l' : List α} {P Q : α → Prop}

theorem Enumerates.congr (h : l.Enumerates P) (hPQ : ∀ a, P a ↔ Q a) : l.Enumerates Q :=
  ⟨h.1, fun a => (h.2 a).trans (hPQ a)⟩

/-- Two enumerations of one predicate differ in the order only. -/
theorem Enumerates.perm (h : l.Enumerates P) (h' : l'.Enumerates P) : l.Perm l' :=
  (perm_ext_iff_of_nodup h.1 h'.1).mpr fun a => (h.2 a).trans (h'.2 a).symm

theorem Enumerates.filter (h : l.Enumerates P) (p : α → Bool) :
    (l.filter p).Enumerates fun a => P a ∧ p a := by
  refine ⟨h.1.filter p, fun a => ?_⟩
  rw [mem_filter, h.2]

theorem Enumerates.append (h : l.Enumerates P) (h' : l'.Enumerates Q) (hPQ : ∀ a, P a → ¬ Q a) :
    (l ++ l').Enumerates fun a => P a ∨ Q a := by
  refine ⟨?_, fun a => ?_⟩
  · rw [nodup_append]
    refine ⟨h.1, h'.1, ?_⟩
    rintro a ha _ ha' rfl
    exact hPQ a ((h.2 a).mp ha) ((h'.2 a).mp ha')
  · rw [mem_append, h.2, h'.2]

theorem Enumerates.filterMap {f : α → Option β} (h : l.Enumerates P)
    (hf : ∀ a a' b, f a = some b → f a' = some b → a = a') :
    (l.filterMap f).Enumerates fun b => ∃ a, P a ∧ f a = some b := by
  refine ⟨h.1.filterMap fun a a' b => hf a a' b, fun b => ?_⟩
  rw [mem_filterMap]
  simp only [h.2]

/-- One block for each element, and no element in two blocks. -/
theorem Enumerates.flatMap {f : α → List β} {R : α → β → Prop} (h : l.Enumerates P)
    (hf : ∀ a, P a → (f a).Enumerates (R a))
    (hR : ∀ a a' b, P a → P a' → R a b → R a' b → a = a') :
    (l.flatMap f).Enumerates fun b => ∃ a, P a ∧ R a b := by
  refine ⟨?_, fun b => ?_⟩
  · rw [nodup_flatMap]
    refine ⟨fun a ha => (hf a ((h.2 a).mp ha)).1, ?_⟩
    refine h.1.imp_of_mem fun {a a'} ha ha' hne b hb hb' => hne ?_
    have hPa := (h.2 a).mp ha
    have hPa' := (h.2 a').mp ha'
    exact hR a a' b hPa hPa' (((hf a hPa).2 b).mp hb) (((hf a' hPa').2 b).mp hb')
  · rw [mem_flatMap]
    constructor
    · rintro ⟨a, ha, hb⟩
      have hPa := (h.2 a).mp ha
      exact ⟨a, hPa, ((hf a hPa).2 b).mp hb⟩
    · rintro ⟨a, hPa, hb⟩
      exact ⟨a, (h.2 a).mpr hPa, ((hf a hPa).2 b).mpr hb⟩

/-! ## Element by element -/

variable {γ : Type}

theorem Forall₂.exists_of_mem {R : α → β → Prop} {m : List β} (h : Forall₂ R l m) {a : α}
    (ha : a ∈ l) : ∃ b ∈ m, R a b := by
  induction h with
  | nil => cases ha
  | cons hab _ ih =>
    rcases mem_cons.mp ha with rfl | ha
    · exact ⟨_, mem_cons_self, hab⟩
    · obtain ⟨b, hb, hR⟩ := ih ha
      exact ⟨b, mem_cons_of_mem _ hb, hR⟩

/-- Two lists that are both compared with a third one. -/
theorem Forall₂.common {R : α → γ → Prop} {S : β → γ → Prop} {m : List β} {n : List γ}
    (h : Forall₂ R l n) (h' : Forall₂ S m n) : Forall₂ (fun a b => ∃ c, R a c ∧ S b c) l m := by
  induction h generalizing m with
  | nil =>
    cases h'
    exact .nil
  | cons hac _ ih =>
    cases h' with
    | cons hbc hrest => exact .cons ⟨_, hac, hbc⟩ (ih hrest)

end List
