import Mathlib

/-!
# Computations with a journal of atomic writes

A call into a store reads the store, may fail, and changes it only through a sequence of writes each
of which is atomic. `Journaled σ ω ε α` records exactly that: what the call answers and the writes
it made, oldest first. A *crash* in the middle of a call leaves the store after some initial part of
its journal, so a property of the store that must survive crashes is one that `Keeps`: it holds after
every initial part, the empty and the whole one included.

`Keeps` and `Emits` (every write made has a given shape) are compositional, and their rules for
`bind` are what proofs about concrete calls use.
-/

/-- A state that atomic writes are applied to. -/
class Writable (σ : Type*) (ω : outParam Type*) where
  write : σ → ω → σ

namespace Writable

variable {σ ω : Type*} [Writable σ ω]

/-- Apply writes one after the other. -/
def writeAll (s : σ) (ws : List ω) : σ := ws.foldl write s

@[simp] theorem writeAll_nil (s : σ) : writeAll s ([] : List ω) = s := rfl

@[simp] theorem writeAll_cons (s : σ) (w : ω) (ws : List ω) :
    writeAll s (w :: ws) = writeAll (write s w) ws := rfl

theorem writeAll_append (s : σ) (ws ws' : List ω) :
    writeAll s (ws ++ ws') = writeAll (writeAll s ws) ws' := by
  simp [writeAll, List.foldl_append]

end Writable

open Writable

/-- What a call answered and what it wrote. -/
structure Outcome (ω ε α : Type*) where
  result : Except ε α
  writes : List ω

/-- A computation over a store. -/
def Journaled (σ ω ε α : Type*) := σ → Outcome ω ε α

namespace Journaled

variable {σ ω ε : Type*} {α β : Type}

/-- A read: no writes. -/
def read (f : σ → Except ε α) : Journaled σ ω ε α := fun s => ⟨f s, []⟩

/-- One atomic write. -/
def write (w : ω) : Journaled σ ω ε Unit := fun _ => ⟨.ok (), [w]⟩

theorem read_apply (f : σ → Except ε α) (s : σ) : (read f : Journaled σ ω ε α) s = ⟨f s, []⟩ := rfl

theorem write_apply (w : ω) (s : σ) : (write w : Journaled σ ω ε Unit) s = ⟨.ok (), [w]⟩ := rfl

variable [Writable σ ω]

/-- The rest of a call sees the writes made so far; an error ends the call. -/
def bind (m : Journaled σ ω ε α) (f : α → Journaled σ ω ε β) : Journaled σ ω ε β := fun s =>
  match m s with
  | ⟨.ok a, ws⟩ =>
    let next := f a (writeAll s ws)
    ⟨next.result, ws ++ next.writes⟩
  | ⟨.error e, ws⟩ => ⟨.error e, ws⟩

instance : Monad (Journaled σ ω ε) where
  pure a := fun _ => ⟨.ok a, []⟩
  bind := bind

/-- The store after the call. -/
def exec (m : Journaled σ ω ε α) (s : σ) : σ := writeAll s (m s).writes

/-- The store after a crash that let the first `n` writes of the call through. -/
def crash (m : Journaled σ ω ε α) (n : Nat) (s : σ) : σ := writeAll s ((m s).writes.take n)

theorem pure_apply (a : α) (s : σ) : (pure a : Journaled σ ω ε α) s = ⟨.ok a, []⟩ := rfl

theorem bind_ok {m : Journaled σ ω ε α} {f : α → Journaled σ ω ε β} {s : σ} {a : α}
    (h : (m s).result = .ok a) :
    (m >>= f) s = ⟨(f a (exec m s)).result, (m s).writes ++ (f a (exec m s)).writes⟩ := by
  show bind m f s = _
  have hm : m s = ⟨.ok a, (m s).writes⟩ := by rw [← h]
  rw [bind, hm]
  rfl

theorem bind_error {m : Journaled σ ω ε α} {f : α → Journaled σ ω ε β} {s : σ} {e : ε}
    (h : (m s).result = .error e) : (m >>= f) s = ⟨.error e, (m s).writes⟩ := by
  show bind m f s = _
  have hm : m s = ⟨.error e, (m s).writes⟩ := by rw [← h]
  rw [bind, hm]

theorem result_bind_ok {m : Journaled σ ω ε α} {f : α → Journaled σ ω ε β} {s : σ} {a : α}
    (h : (m s).result = .ok a) : ((m >>= f) s).result = (f a (exec m s)).result := by
  rw [bind_ok h]

theorem result_bind_error {m : Journaled σ ω ε α} {f : α → Journaled σ ω ε β} {s : σ} {e : ε}
    (h : (m s).result = .error e) : ((m >>= f) s).result = .error e := by
  rw [bind_error h]

/-- The store after a sequence: the rest goes on from where the first part ended. -/
theorem exec_bind_ok {m : Journaled σ ω ε α} {f : α → Journaled σ ω ε β} {s : σ} {a : α}
    (h : (m s).result = .ok a) : exec (m >>= f) s = exec (f a) (exec m s) := by
  rw [exec, bind_ok h, writeAll_append]
  rfl

theorem exec_bind_error {m : Journaled σ ω ε α} {f : α → Journaled σ ω ε β} {s : σ} {e : ε}
    (h : (m s).result = .error e) : exec (m >>= f) s = exec m s := by
  rw [exec, bind_error h]
  rfl

/-- Post-processing the answer writes nothing. -/
theorem writes_bind_pure (m : Journaled σ ω ε α) (f : α → β) (s : σ) :
    ((m >>= fun a => pure (f a)) s).writes = (m s).writes := by
  cases hr : (m s).result with
  | error e => rw [bind_error hr]
  | ok a =>
    rw [bind_ok hr, pure_apply]
    exact List.append_nil _

/-! ## Crashes, from the front of a call -/

@[simp] theorem crash_zero (m : Journaled σ ω ε α) (s : σ) : crash m 0 s = s := by
  simp [crash]

theorem crash_read_bind {f : σ → Except ε α} {g : α → Journaled σ ω ε β} {s : σ} {a : α}
    (h : f s = .ok a) (n : Nat) : crash (read f >>= g) n s = crash (g a) n s := by
  have hread : ((read f : Journaled σ ω ε α) s).result = .ok a := h
  rw [crash, bind_ok hread]
  simp [crash, exec, read_apply]

theorem crash_read_bind_error {f : σ → Except ε α} {g : α → Journaled σ ω ε β} {s : σ} {e : ε}
    (h : f s = .error e) (n : Nat) : crash (read f >>= g) n s = s := by
  have hread : ((read f : Journaled σ ω ε α) s).result = .error e := h
  rw [crash, bind_error hread]
  simp [read_apply]

theorem crash_write_bind {w : ω} {g : Unit → Journaled σ ω ε β} {s : σ} (n : Nat) :
    crash (write w >>= g) (n + 1) s = crash (g ()) n (Writable.write s w) := by
  have hok : ((write w : Journaled σ ω ε Unit) s).result = .ok () := rfl
  rw [crash, bind_ok hok]
  simp [crash, exec, write_apply]

/-- A loop that makes one write for each item. -/
theorem forM_write_apply {γ : Type} (f : γ → ω) (xs : List γ) (s : σ) :
    (xs.forM fun x => (write (f x) : Journaled σ ω ε Unit)) s = ⟨.ok (), xs.map f⟩ := by
  induction xs generalizing s with
  | nil => rfl
  | cons x xs ih =>
    have hstep : ((x :: xs).forM fun x => (write (f x) : Journaled σ ω ε Unit)) =
        (write (f x) >>= fun _ => xs.forM fun x => write (f x)) := rfl
    have hok : ((write (f x) : Journaled σ ω ε Unit) s).result = .ok () := rfl
    rw [hstep, bind_ok hok, ih, write_apply]
    rfl

/-! ## Properties that survive crashes -/

/-- `P` holds after every initial part of the call's journal. -/
def Keeps (P : σ → Prop) (m : Journaled σ ω ε α) (s : σ) : Prop := ∀ n, P (crash m n s)

theorem Keeps.exec {P : σ → Prop} {m : Journaled σ ω ε α} {s : σ} (h : Keeps P m s) :
    P (exec m s) := by
  have := h (m s).writes.length
  rwa [crash, List.take_length] at this

theorem Keeps.imp {P Q : σ → Prop} {m : Journaled σ ω ε α} {s : σ} (h : Keeps P m s)
    (hPQ : ∀ s, P s → Q s) : Keeps Q m s := by
  intro n
  exact hPQ _ (h n)

theorem keeps_pure {P : σ → Prop} {s : σ} (a : α) (h : P s) :
    Keeps P (pure a : Journaled σ ω ε α) s := by
  intro n
  simpa [crash, pure_apply] using h

theorem keeps_read {P : σ → Prop} {s : σ} {f : σ → Except ε α} (h : P s) :
    Keeps P (read f : Journaled σ ω ε α) s := by
  intro n
  simpa [crash, read_apply] using h

theorem keeps_write {P : σ → Prop} {s : σ} {w : ω} (h : P s) (hw : P (Writable.write s w)) :
    Keeps P (write w : Journaled σ ω ε Unit) s := by
  intro n
  cases n with
  | zero => simpa [crash] using h
  | succ n => simpa [crash, write_apply] using hw

/-- **Sequencing.** What the first part keeps and the rest keeps from there, the whole keeps. -/
theorem keeps_bind {P : σ → Prop} {m : Journaled σ ω ε α} {f : α → Journaled σ ω ε β} {s : σ}
    (hm : Keeps P m s) (hf : ∀ a, (m s).result = .ok a → Keeps P (f a) (exec m s)) :
    Keeps P (m >>= f) s := by
  intro n
  cases hr : (m s).result with
  | error e =>
    rw [crash, bind_error hr]
    exact hm n
  | ok a =>
    rw [crash, bind_ok hr, List.take_append, writeAll_append]
    by_cases hn : n ≤ (m s).writes.length
    · rw [Nat.sub_eq_zero_of_le hn, List.take_zero, writeAll_nil]
      exact hm n
    · rw [List.take_of_length_le (by omega)]
      exact hf a hr _

/-! ## The shape of a call's writes -/

/-- Every write of the call, from any state, satisfies `Q`. -/
def Emits (Q : ω → Prop) (m : Journaled σ ω ε α) : Prop := ∀ s, ∀ w ∈ (m s).writes, Q w

theorem emits_pure {Q : ω → Prop} (a : α) : Emits Q (pure a : Journaled σ ω ε α) := by
  intro s w hw
  simp [pure_apply] at hw

omit [Writable σ ω] in
theorem emits_read {Q : ω → Prop} (f : σ → Except ε α) : Emits Q (read f : Journaled σ ω ε α) := by
  intro s w hw
  simp [read_apply] at hw

omit [Writable σ ω] in
theorem emits_write {Q : ω → Prop} {w : ω} (h : Q w) : Emits Q (write w : Journaled σ ω ε Unit) := by
  intro s w' hw
  simp only [write_apply, List.mem_singleton] at hw
  exact hw ▸ h

theorem emits_bind {Q : ω → Prop} {m : Journaled σ ω ε α} {f : α → Journaled σ ω ε β}
    (hm : Emits Q m) (hf : ∀ a, Emits Q (f a)) : Emits Q (m >>= f) := by
  intro s w hw
  cases hr : (m s).result with
  | error e =>
    rw [bind_error hr] at hw
    exact hm s w hw
  | ok a =>
    rw [bind_ok hr] at hw
    rcases List.mem_append.mp hw with hw | hw
    · exact hm s w hw
    · exact hf a _ w hw

end Journaled
