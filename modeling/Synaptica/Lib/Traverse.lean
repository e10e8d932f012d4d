import Mathlib

/-!
# Loops that may fail

A loop over a list that stops at its first error is `List.mapM` in `Except`. It succeeds exactly when
every element does, and then answers with the elements' answers in order.
-/

namespace List

variable {α β γ ε : Type}

theorem mapM_eq_ok_filterMap {f : α → Except ε β} {l : List α} (h : ∀ a ∈ l, ∃ b, f a = .ok b) :
    l.mapM f = .ok (l.filterMap fun a => (f a).toOption) := by
  induction l with
  | nil => rfl
  | cons a l ih =>
    obtain ⟨b, hb⟩ := h a mem_cons_self
    rw [mapM_cons, hb, ih fun a' ha' => h a' (mem_cons_of_mem _ ha')]
    simp [hb, Except.toOption, bind, Except.bind, pure, Except.pure]

theorem mapM_eq_ok_map {f : α → Except ε β} {g : α → β} {l : List α} (h : ∀ a ∈ l, f a = .ok (g a)) :
    l.mapM f = .ok (l.map g) := by
  induction l with
  | nil => rfl
  | cons a l ih =>
    rw [mapM_cons, h a mem_cons_self, ih fun a' ha' => h a' (mem_cons_of_mem _ ha')]
    rfl

theorem mapM_congr_left {f g : α → Except ε β} {l : List α} (h : ∀ a ∈ l, f a = g a) :
    l.mapM f = l.mapM g := by
  induction l with
  | nil => rfl
  | cons a l ih =>
    rw [mapM_cons, mapM_cons, h a mem_cons_self, ih fun a' ha' => h a' (mem_cons_of_mem _ ha')]

theorem forall_ok_of_mapM_eq_ok {f : α → Except ε β} {l : List α} {r : List β}
    (h : l.mapM f = .ok r) : ∀ a ∈ l, ∃ b, f a = .ok b := by
  induction l generalizing r with
  | nil => simp
  | cons a l ih =>
    rw [mapM_cons] at h
    cases hb : f a with
    | error e => simp [hb, bind, Except.bind] at h
    | ok b =>
      cases hl : l.mapM f with
      | error e => simp [hb, hl, bind, Except.bind] at h
      | ok bs =>
        intro a' ha'
        rcases mem_cons.mp ha' with rfl | ha'
        · exact ⟨b, hb⟩
        · exact ih hl a' ha'

/-- A `filterMap` that drops nothing, seen through functions that it preserves. -/
theorem map_filterMap_eq_map {f : α → Option β} {g : β → γ} {h : α → γ} {l : List α}
    (hl : ∀ a ∈ l, ∃ b, f a = some b ∧ g b = h a) : (l.filterMap f).map g = l.map h := by
  induction l with
  | nil => rfl
  | cons a l ih =>
    obtain ⟨b, hb, hg⟩ := hl a mem_cons_self
    rw [filterMap_cons_some hb, map_cons, map_cons, hg, ih fun a' ha' => hl a' (mem_cons_of_mem _ ha')]

/-- **Reading through an index.** When the keys of an index are those of the records in `m`, each
once but in any order, fetching the record of every key gives the records of `m`, each once. -/
theorem mapM_perm_of_keys {f : α → Except ε β} {key : β → α} {l : List α} {m : List β}
    (hkeys : l.Perm (m.map key)) (hf : ∀ b ∈ m, f (key b) = .ok b) :
    ∃ r, l.mapM f = .ok r ∧ r.Perm m := by
  have hall : ∀ a ∈ l, ∃ b, f a = .ok b := by
    intro a ha
    obtain ⟨b, hb, rfl⟩ := mem_map.mp (hkeys.mem_iff.mp ha)
    exact ⟨b, hf b hb⟩
  refine ⟨_, mapM_eq_ok_filterMap hall, (hkeys.filterMap _).trans ?_⟩
  have hself : (m.map key).filterMap (fun a => (f a).toOption) = m := by
    rw [filterMap_map]
    have := map_filterMap_eq_map (f := (fun a => (f a).toOption) ∘ key) (g := id) (h := id) (l := m)
      fun b hb => ⟨b, by simp [hf b hb, Except.toOption], rfl⟩
    simpa using this
  rw [hself]

/-- Each answer is found by what it shares with its element. -/
theorem mapM_eq_ok_of_map_eq {f : α → Except ε β} {g : α → γ} {key : β → γ} {l : List α} {m : List β}
    (h : l.map g = m.map key) (hf : ∀ a ∈ l, ∀ b ∈ m, g a = key b → f a = .ok b) : l.mapM f = .ok m := by
  induction l generalizing m with
  | nil =>
    obtain rfl := map_eq_nil_iff.mp h.symm
    rfl
  | cons a l ih =>
    cases m with
    | nil => cases h
    | cons b m =>
      rw [map_cons, map_cons, cons.injEq] at h
      rw [mapM_cons, hf a mem_cons_self b mem_cons_self h.1,
        ih h.2 fun a' ha' b' hb' => hf a' (mem_cons_of_mem _ ha') b' (mem_cons_of_mem _ hb')]
      rfl

/-- A list of images, as the images of a list. -/
theorem exists_map_eq {f : α → β} {P : α → Prop} {l : List β} (h : ∀ b ∈ l, ∃ a, P a ∧ f a = b) :
    ∃ as : List α, as.map f = l ∧ ∀ a ∈ as, P a := by
  induction l with
  | nil => exact ⟨[], rfl, by simp⟩
  | cons b l ih =>
    obtain ⟨a, ha, rfl⟩ := h b mem_cons_self
    obtain ⟨as, rfl, has⟩ := ih fun b hb => h b (mem_cons_of_mem _ hb)
    exact ⟨a :: as, rfl, forall_mem_cons.mpr ⟨ha, has⟩⟩

end List
