import Mathlib

/-!
# Runs of a deterministic machine

A machine is a function `step : σ → ι → σ` from a state and an input to the next state. A run
feeds it a list of inputs; `Each` says that every step of a run is taken under a condition on the
state before it and its input. `invariant` is the only induction over runs a development needs:
what every admissible step preserves, every admissible run preserves.
-/

namespace Run

variable {σ ι : Type*} (step : σ → ι → σ)

/-- The state a run ends in. -/
def exec (s : σ) (is : List ι) : σ := is.foldl step s

/-- Every step of the run from `s` meets `ok`. -/
def Each (ok : σ → ι → Prop) : σ → List ι → Prop
  | _, [] => True
  | s, i :: is => ok s i ∧ Each ok (step s i) is

instance Each.instDecidable (ok : σ → ι → Prop) [∀ s i, Decidable (ok s i)] :
    ∀ (s : σ) (is : List ι), Decidable (Each step ok s is)
  | _, [] => inferInstanceAs (Decidable True)
  | s, i :: is =>
    have := Each.instDecidable ok (step s i) is
    inferInstanceAs (Decidable (ok s i ∧ Each step ok (step s i) is))

@[simp] theorem exec_nil (s : σ) : exec step s [] = s := rfl

@[simp] theorem exec_cons (s : σ) (i : ι) (is : List ι) :
    exec step s (i :: is) = exec step (step s i) is := rfl

theorem exec_append (s : σ) (is js : List ι) :
    exec step s (is ++ js) = exec step (exec step s is) js := by
  simp [exec, List.foldl_append]

variable {step} {ok : σ → ι → Prop}

theorem each_append {s : σ} {is js : List ι} :
    Each step ok s (is ++ js) ↔ Each step ok s is ∧ Each step ok (exec step s is) js := by
  induction is generalizing s with
  | nil => simp [Each]
  | cons i is ih => simp [Each, ih, and_assoc]

/-- **What every admissible step preserves, every admissible run preserves.** -/
theorem invariant (Inv : σ → Prop) (hstep : ∀ s i, Inv s → ok s i → Inv (step s i)) {s : σ}
    {is : List ι} (hs : Inv s) (hok : Each step ok s is) : Inv (exec step s is) := by
  induction is generalizing s with
  | nil => exact hs
  | cons i is ih => exact ih (hstep s i hs hok.1) hok.2

/-- A machine without conditions. -/
theorem each_true (s : σ) (is : List ι) : Each step (fun _ _ => True) s is := by
  induction is generalizing s with
  | nil => trivial
  | cons i is ih => exact ⟨trivial, ih _⟩

/-- What holds of every input holds along the run. -/
theorem Each.and_forall_mem {P : ι → Prop} {s : σ} {is : List ι} (h : Each step ok s is)
    (hP : ∀ i ∈ is, P i) : Each step (fun s i => ok s i ∧ P i) s is := by
  induction is generalizing s with
  | nil => trivial
  | cons i is ih =>
    exact ⟨⟨h.1, hP i List.mem_cons_self⟩, ih h.2 fun j hj => hP j (List.mem_cons_of_mem _ hj)⟩

theorem Each.and {ok' : σ → ι → Prop} {s : σ} {is : List ι} (h : Each step ok s is)
    (h' : Each step ok' s is) : Each step (fun s i => ok s i ∧ ok' s i) s is := by
  induction is generalizing s with
  | nil => trivial
  | cons i is ih => exact ⟨⟨h.1, h'.1⟩, ih h.2 h'.2⟩

/-- A condition that an invariant grants may be assumed of every step of a run. -/
theorem Each.strengthen {ok' : σ → ι → Prop} (Inv : σ → Prop)
    (hstep : ∀ s i, Inv s → ok s i → Inv (step s i)) (himp : ∀ s i, Inv s → ok s i → ok' s i)
    {s : σ} {is : List ι} (hs : Inv s) (hok : Each step ok s is) : Each step ok' s is := by
  induction is generalizing s with
  | nil => trivial
  | cons i is ih => exact ⟨himp s i hs hok.1, ih (hstep s i hs hok.1) hok.2⟩

/-! ## Histories -/

section History

variable {ε : Type*}

/-- A history, newest event first, each event of which is justified by the events before it. -/
def Justified (R : List ε → ε → Prop) : List ε → Prop
  | [] => True
  | e :: past => R past e ∧ Justified R past

end History

end Run
