import Mathlib

/-!
# The first element that nothing beats

A fold keeps the best element so far and replaces it by one that beats it. When `beats` is a strict
partial order, the element it ends with is beaten by no other one, and any such element comes out when
it is put first. So the outcome is the same for every order of the list exactly when there is only one
of them.
-/

namespace Champion

variable {α : Type} (beats : α → α → Bool)

/-- One step: the new element wins when it beats the one that is kept. -/
def step (best a : α) : α := if beats a best then a else best

/-- The outcome over a list. -/
def champion : List α → Option α
  | [] => none
  | a :: l => some (l.foldl (step beats) a)

/-- Nothing in the list beats it. -/
def Unbeaten (l : List α) (m : α) : Prop := m ∈ l ∧ ∀ a ∈ l, beats a m = false

variable {beats} {l : List α} {a m : α}

/-- The fold ends with an element that it has seen: the first one, or one that beats it. -/
theorem foldl_step_spec (htrans : ∀ a b c, beats a b → beats b c → beats a c) (a : α) :
    l.foldl (step beats) a ∈ a :: l ∧
      (l.foldl (step beats) a = a ∨ beats (l.foldl (step beats) a) a) := by
  induction l generalizing a with
  | nil => exact ⟨List.mem_cons_self, .inl rfl⟩
  | cons b l ih =>
    rw [List.foldl_cons]
    by_cases hb : beats b a = true
    · have hstep : step beats a b = b := if_pos hb
      rw [hstep]
      obtain ⟨hmem, heq | hbeats⟩ := ih b
      · exact ⟨List.mem_cons_of_mem _ hmem, .inr (by rw [heq]; exact hb)⟩
      · exact ⟨List.mem_cons_of_mem _ hmem, .inr (htrans _ _ _ hbeats hb)⟩
    · have hstep : step beats a b = a := if_neg hb
      rw [hstep]
      obtain ⟨hmem, hor⟩ := ih a
      refine ⟨?_, hor⟩
      rcases List.mem_cons.mp hmem with heq | hmem
      · rw [heq]
        exact List.mem_cons_self
      · exact List.mem_cons_of_mem _ (List.mem_cons_of_mem _ hmem)

/-- Nothing beats what the fold ends with. -/
theorem foldl_step_unbeaten (htrans : ∀ a b c, beats a b → beats b c → beats a c)
    (hirrefl : ∀ a, beats a a = false) (a : α) :
    ∀ b ∈ a :: l, beats b (l.foldl (step beats) a) = false := by
  induction l generalizing a with
  | nil =>
    intro b hb
    rw [List.mem_singleton.mp hb]
    exact hirrefl a
  | cons c l ih =>
    intro b hb
    rw [List.foldl_cons]
    -- what beats the outcome beats what was kept before it
    have hkept : beats b (step beats a c) = false → beats b (l.foldl (step beats) (step beats a c)) =
        false := by
      intro hb'
      rcases (foldl_step_spec (l := l) htrans (step beats a c)).2 with heq | hbeats
      · rw [heq]
        exact hb'
      · by_contra hne
        exact absurd (htrans _ _ _ (Bool.not_eq_false _ ▸ hne) hbeats) (by rw [hb']; decide)
    rcases List.mem_cons.mp hb with rfl | hb
    · apply hkept
      unfold step
      split_ifs with hc
      · by_contra hne
        exact absurd (htrans _ _ _ hc (Bool.not_eq_false _ ▸ hne)) (by rw [hirrefl]; decide)
      · exact hirrefl b
    · rcases List.mem_cons.mp hb with rfl | hb
      · apply hkept
        unfold step
        split_ifs with hc
        · exact hirrefl b
        · exact Bool.not_eq_true _ ▸ hc
      · exact ih _ b (List.mem_cons_of_mem _ hb)

/-- What nothing beats stays. -/
theorem foldl_step_of_unbeaten (h : ∀ b ∈ l, beats b a = false) : l.foldl (step beats) a = a := by
  induction l with
  | nil => rfl
  | cons b l ih =>
    have hstep : step beats a b = a := if_neg (by rw [h b List.mem_cons_self]; decide)
    rw [List.foldl_cons, hstep]
    exact ih fun c hc => h c (List.mem_cons_of_mem _ hc)

theorem unbeaten_of_champion (htrans : ∀ a b c, beats a b → beats b c → beats a c)
    (hirrefl : ∀ a, beats a a = false) (h : champion beats l = some m) : Unbeaten beats l m := by
  cases l with
  | nil => cases h
  | cons a l =>
    cases h
    exact ⟨(foldl_step_spec htrans a).1, foldl_step_unbeaten htrans hirrefl a⟩

/-- Each element is unbeaten, or one that is unbeaten beats it. -/
theorem exists_unbeaten (htrans : ∀ a b c, beats a b → beats b c → beats a c)
    (hirrefl : ∀ a, beats a a = false) (h : a ∈ l) :
    ∃ m, Unbeaten beats l m ∧ (m = a ∨ beats m a) := by
  obtain ⟨hmem, hor⟩ := foldl_step_spec (l := l) htrans a
  refine ⟨_, ⟨?_, ?_⟩, hor⟩
  · rcases List.mem_cons.mp hmem with heq | hmem
    · rw [heq]
      exact h
    · exact hmem
  · intro b hb
    exact foldl_step_unbeaten htrans hirrefl a b (List.mem_cons_of_mem _ hb)

theorem Unbeaten.perm {l' : List α} (h : Unbeaten beats l m) (hp : l'.Perm l) : Unbeaten beats l' m :=
  ⟨hp.mem_iff.mpr h.1, fun a ha => h.2 a (hp.mem_iff.mp ha)⟩

/-- **The outcome does not depend on the order** exactly when there is one unbeaten element. -/
theorem champion_perm_iff (htrans : ∀ a b c, beats a b → beats b c → beats a c)
    (hirrefl : ∀ a, beats a a = false) :
    (∀ l', l'.Perm l → champion beats l' = champion beats l) ↔
      ∀ m m', Unbeaten beats l m → Unbeaten beats l m' → m = m' := by
  constructor
  · intro h
    -- an unbeaten element is the outcome when it comes first
    have hfirst : ∀ m, Unbeaten beats l m → champion beats l = some m := by
      intro m hm
      obtain ⟨s, t, rfl⟩ := List.append_of_mem hm.1
      have hp : (m :: (s ++ t)).Perm (s ++ m :: t) := List.perm_middle.symm
      rw [← h _ hp]
      refine congrArg some (foldl_step_of_unbeaten fun b hb => hm.2 b ?_)
      exact hp.mem_iff.mp (List.mem_cons_of_mem _ hb)
    intro m m' hm hm'
    exact Option.some_inj.mp ((hfirst m hm).symm.trans (hfirst m' hm'))
  · intro h l' hp
    cases hl : champion beats l with
    | none =>
      cases l with
      | nil => rw [hp.eq_nil]; rfl
      | cons a l => cases hl
    | some m =>
      cases hl' : champion beats l' with
      | none =>
        cases l' with
        | nil => rw [hp.nil_eq.symm] at hl; cases hl
        | cons a l' => cases hl'
      | some m' =>
        have hm := unbeaten_of_champion htrans hirrefl hl
        have hm' := unbeaten_of_champion htrans hirrefl hl'
        rw [h m' m (hm'.perm hp.symm) hm]

end Champion
