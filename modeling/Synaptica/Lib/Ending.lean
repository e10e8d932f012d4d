import Mathlib.Logic.Basic

/-!
# Computations that end

A computation with a state that may fail and may not end answers a value and a state, an error, or
nothing. `EndAlike` says that two of them end on a state, and with the same answer; its rules follow the
monad. One proof by these rules shows that a computation ends, what holds of its answer, and that the
answer does not depend on a part in which the two computations differ.
-/

namespace Ending

variable {σ ε α β : Type}

/-- What is asked of an answer: there is one, `E` holds of an error and `Q` of a value and a state. -/
inductive Meets (E : ε → Prop) (Q : α → σ → Prop) : Option (Except ε (α × σ)) → Prop
  | value {a : α} {s : σ} (h : Q a s) : Meets E Q (some (.ok (a, s)))
  | error {e : ε} (h : E e) : Meets E Q (some (.error e))

/-- On `s` the computations end, and alike. -/
structure EndAlike (E : ε → Prop) (x y : StateT σ (ExceptT ε Option) α) (s : σ)
    (Q : α → σ → Prop) : Prop where
  same : x s = y s
  meets : Meets E Q (x s)

namespace EndAlike

variable {E : ε → Prop} {x y : StateT σ (ExceptT ε Option) α} {s s' : σ} {Q R : α → σ → Prop}

theorem of_value {a : α} (hx : x s = some (.ok (a, s'))) (hy : y s = some (.ok (a, s')))
    (h : Q a s') : EndAlike E x y s Q := by
  constructor
  · rw [hx, hy]
  · rw [hx]
    exact .value h

theorem of_error {e : ε} (hx : x s = some (.error e)) (hy : y s = some (.error e)) (h : E e) :
    EndAlike E x y s Q := by
  constructor
  · rw [hx, hy]
  · rw [hx]
    exact .error h

theorem pure {a : α} (h : Q a s) : EndAlike E (Pure.pure a) (Pure.pure a) s Q :=
  of_value rfl rfl h

theorem mono (h : EndAlike E x y s Q) (hQ : ∀ a s', Q a s' → R a s') : EndAlike E x y s R := by
  obtain ⟨hsame, hmeets⟩ := h
  generalize hr : x s = r at hmeets
  cases hmeets with
  | value h => exact of_value hr (hsame ▸ hr) (hQ _ _ h)
  | error h => exact of_error hr (hsame ▸ hr) h

theorem ite {c : Prop} [Decidable c] {x' y' : StateT σ (ExceptT ε Option) α}
    (hyes : c → EndAlike E x y s Q) (hno : ¬ c → EndAlike E x' y' s Q) :
    EndAlike E (if c then x else x') (if c then y else y') s Q := by
  by_cases h : c
  · rw [if_pos h, if_pos h]
    exact hyes h
  · rw [if_neg h, if_neg h]
    exact hno h

/-- A sequence ends if its parts do. -/
theorem bind {f g : α → StateT σ (ExceptT ε Option) β} {R : β → σ → Prop} (h : EndAlike E x y s Q)
    (hfg : ∀ a s', Q a s' → EndAlike E (f a) (g a) s' R) : EndAlike E (x >>= f) (y >>= g) s R := by
  obtain ⟨hsame, hmeets⟩ := h
  have hrun : ∀ (z : StateT σ (ExceptT ε Option) α) (k : α → StateT σ (ExceptT ε Option) β),
      (z >>= k) s = match z s with
        | none => none
        | some (.error e) => some (.error e)
        | some (.ok (a, s')) => k a s' := by
    intro z k
    simp only [Bind.bind, StateT.bind, ExceptT.bind, ExceptT.mk]
    rcases z s with _ | ⟨e | ⟨a, s'⟩⟩ <;> rfl
  generalize hr : x s = r at hmeets
  cases hmeets with
  | @value a s' h =>
    obtain ⟨hnext, hanswer⟩ := hfg a s' h
    constructor
    · rw [hrun, hrun, ← hsame, hr]
      exact hnext
    · rw [hrun, hr]
      exact hanswer
  | @error e h =>
    apply of_error _ _ h
    · rw [hrun, hr]
    · rw [hrun, ← hsame, hr]

end EndAlike

end Ending
