import Synaptica.Lib.Process

/-!
# How a process may fail

`p.FailsOnly E` says that whatever run of `p` ends with an error, the error satisfies `E`. The rule for a
sequence goes with a description of what the first part answers, so that the second part is only asked
about answers it can get.
-/

namespace Process

variable {σ ι τ ε α β : Type} {E : ε → Prop}

/-- Every error of the process satisfies `E`. -/
def FailsOnly (E : ε → Prop) (p : Process σ ι τ ε α) : Prop :=
  ∀ ω s e, (p.run ω s).result = .error e → E e

theorem failsOnly_pure (a : α) : (pure a : Process σ ι τ ε α).FailsOnly E := by
  intro ω s e h
  cases h

theorem failsOnly_ofExcept {r : Except ε α} (h : ∀ e, r = .error e → E e) :
    (ofExcept r : Process σ ι τ ε α).FailsOnly E :=
  fun _ _ => h

theorem failsOnly_fail {e : ε} (h : E e) : (fail e : Process σ ι τ ε α).FailsOnly E := by
  intro ω s e' he
  cases he
  exact h

theorem failsOnly_read {answer : σ → Except ε α} (h : ∀ s e, answer s = .error e → E e) :
    (read answer : Process σ ι τ ε α).FailsOnly E :=
  fun _ => h

theorem failsOnly_drawn : (drawn : Process σ ι τ ε ι).FailsOnly E := by
  intro ω s e h
  cases h

theorem failsOnly_bind {Q : α → Prop} {p : Process σ ι τ ε α} {f : α → Process σ ι τ ε β}
    (hp : p.FailsOnly E) (hQ : p.Answers Q) (hf : ∀ a, Q a → (f a).FailsOnly E) : (p >>= f).FailsOnly E := by
  intro ω s e h
  rw [run_bind, Ended.andThen] at h
  cases hresult : (p.run ω s).result with
  | ok a =>
    rw [hresult] at h
    exact hf a (hQ ω s a hresult) _ _ e h
  | error e' =>
    rw [hresult] at h
    cases h
    exact hp ω s e hresult

/-- The rule where the answer of the first part does not matter. -/
theorem failsOnly_then {p : Process σ ι τ ε α} {f : α → Process σ ι τ ε β} (hp : p.FailsOnly E)
    (hf : ∀ a, (f a).FailsOnly E) : (p >>= f).FailsOnly E :=
  failsOnly_bind hp (answers_true p) fun a _ => hf a

end Process

namespace Except

variable {ε α β : Type} {E : ε → Prop}

/-- Every error of a sequence is one of its parts'. -/
theorem fails_bind {x : Except ε α} {f : α → Except ε β} (hx : ∀ e, x = .error e → E e)
    (hf : ∀ a, x = .ok a → ∀ e, f a = .error e → E e) (e : ε) (h : (x >>= f) = .error e) : E e := by
  cases x with
  | ok a => exact hf a rfl e h
  | error e' =>
    cases h
    exact hx e rfl

end Except
